import GateSynth.Verilog.Lexer
import GateSynth.Verilog.Tree

/-!
# Parsing

`parse` reads the modules of a source text. Expressions have, from the loosest to the tightest,
the right-associative choice, the left-associative operators in the order of `bindingPower?`, the
operators in front of an operand, and operands.

A `Cursor` is what is left of the tokens. A fault is placed at the next token, or at the last one
when none is left.
-/

namespace GateSynth.Verilog

/-- The tokens that are left. -/
structure Cursor where
  /-- The tokens from the next one on. -/
  rest : List Spanned
  /-- The position of the last token of the text. -/
  last : Position

namespace Cursor

/-- The next token. -/
def peek? (c : Cursor) : Option Token := c.rest.head?.map Spanned.token

/-- The position of the next token, or of the last one. -/
def pos (c : Cursor) : Position := (c.rest.head?.map Spanned.pos).getD c.last

/-- The cursor behind the next token. -/
def next (c : Cursor) : Cursor := { c with rest := c.rest.tail }

/-- How the next token is named in messages. -/
def found (c : Cursor) : String := (c.peek?.map Token.text).getD "end of input"

end Cursor

/-- Readers of tokens. -/
abbrev Parser := StateT Cursor (Except SourceError)

namespace Parser

/-! ## Single tokens -/

/-- The next token. -/
def peek : Parser (Option Token) := do return (← get).peek?

/-- The position of the next token. -/
def position : Parser Position := do return (← get).pos

/-- Go behind the next token. -/
def skip : Parser Unit := modify Cursor.next

/-- Fail at the next token. -/
def fail {α : Type} (detail : String) : Parser α := do throw (.grammar (← position) detail)

/-- Fail at the next token with a construct that is left out. -/
def unsupported {α : Type} (construct : String) : Parser α := do
  throw (.unsupported (← position) construct)

/-- Go behind a token if it is next, and say whether it was. -/
def accept (token : Token) : Parser Bool := do
  if (← peek) = some token then
    skip
    return true
  else return false

/-- Go behind a mark if it is next. -/
def acceptMark (m : Mark) : Parser Bool := accept (.mark m)

/-- Go behind a token that has to be next. -/
def expect (token : Token) : Parser Unit := do
  unless ← accept token do
    let found := (← get).found
    fail ("expected " ++ token.text ++ ", found " ++ found)

/-- Go behind a mark that has to be next. -/
def expectMark (m : Mark) : Parser Unit := expect (.mark m)

/-- An identifier. -/
def ident : Parser String := do
  match ← peek with
  | some (.ident name) =>
    skip
    return name
  | _ =>
    let found := (← get).found
    fail ("expected an identifier, found " ++ found)

/-- A number without a size that fits 32 bits. -/
def index : Parser Nat := do
  match ← peek with
  | some (.number value) =>
    skip
    if value.toNat < UInt32.size then return value.toNat else fail "index out of range"
  | _ => fail "expected a number"

/-! ## Expressions -/

/-- How tightly an operator between two operands binds, and which one it is. -/
def bindingPower? : Token → Option (Nat × BinaryOp)
  | .mark .orOr => some (1, .logicOr)
  | .mark .andAnd => some (2, .logicAnd)
  | .mark .pipe => some (3, .or)
  | .mark .caret => some (4, .xor)
  | .mark .xnor => some (4, .xnor)
  | .mark .amp => some (5, .and)
  | .mark .equalEqual => some (6, .eq)
  | .mark .notEqual => some (6, .ne)
  | .mark .less => some (7, .lt)
  | .mark .lessEqual => some (7, .le)
  | .mark .greater => some (7, .gt)
  | .mark .greaterEqual => some (7, .ge)
  | .mark .plus => some (8, .add)
  | .mark .minus => some (8, .sub)
  | .mark .star => some (9, .mul)
  | .mark .slash => some (9, .div)
  | _ => none

/-- A signal or the selection of bits of it, behind its name. -/
def signal (name : String) (pos : Position) : Parser Expr := do
  if ← acceptMark .leftBracket then
    let msb ← index
    let lsb ← if ← acceptMark .colon then index else pure msb
    if msb < lsb then
      unsupported s!"ascending part-select [{msb}:{lsb}]"
    expectMark .rightBracket
    return .select name msb lsb pos
  else return .ident name pos

mutual

/-- An expression. -/
def expr : (fuel : Nat) → Parser Expr
  | 0 => fail "expression nested too deeply"
  | fuel + 1 => do
    let condition ← binary fuel 0
    if ← acceptMark .question then
      let yes ← expr fuel
      expectMark .colon
      let no ← expr fuel
      return .ternary condition yes no
    else return condition

/-- Operands joined by operators that bind more tightly than `power`. -/
def binary : (fuel : Nat) → (power : Nat) → Parser Expr
  | 0, _ => fail "expression nested too deeply"
  | fuel + 1, power => do
    let left ← unary fuel
    binaryRest fuel power left

/-- The operators and operands behind a left operand. -/
def binaryRest : (fuel : Nat) → (power : Nat) → (left : Expr) → Parser Expr
  | 0, _, _ => fail "expression nested too deeply"
  | fuel + 1, power, left => do
    match (← peek).bind bindingPower? with
    | some (tighter, op) =>
      if tighter ≤ power then return left
      else
        skip
        let right ← binary fuel tighter
        binaryRest fuel power (.binary op left right)
    | none => return left

/-- An operand with the operators in front of it; a minus sign subtracts from zero. -/
def unary : (fuel : Nat) → Parser Expr
  | 0 => fail "expression nested too deeply"
  | fuel + 1 => do
    match ← peek with
    | some (.mark .tilde) =>
      skip
      return .unary .not (← unary fuel)
    | some (.mark .bang) =>
      skip
      return .unary .logicNot (← unary fuel)
    | some (.mark .minus) =>
      skip
      return .binary .sub (.number none 0) (← unary fuel)
    | some (.mark .amp) | some (.mark .pipe) | some (.mark .caret) | some (.mark .xnor) =>
      unsupported "reduction operators"
    | _ => operand fuel

/-- A signal, a literal, an expression in parentheses, or parts in braces. -/
def operand : (fuel : Nat) → Parser Expr
  | 0 => fail "expression nested too deeply"
  | fuel + 1 => do
    let pos ← position
    match ← peek with
    | some (.ident name) =>
      skip
      signal name pos
    | some (.number value) =>
      skip
      return .number none value
    | some (.sized width value) =>
      skip
      return .number (some width) value
    | some (.mark .leftParen) =>
      skip
      let inner ← expr fuel
      expectMark .rightParen
      return inner
    | some (.mark .leftBrace) =>
      skip
      let first ← expr fuel
      let parts ← exprsRest fuel [first]
      expectMark .rightBrace
      return .concat parts
    | none | some (.keyword _) | some (.mark _) =>
      let found := (← get).found
      fail ("expected an expression, found " ++ found)

/-- The expressions behind commas, after those already read. -/
def exprsRest : (fuel : Nat) → (before : List Expr) → Parser (List Expr)
  | 0, _ => fail "expression nested too deeply"
  | fuel + 1, before => do
    if ← acceptMark .comma then
      let next ← expr fuel
      exprsRest fuel (before ++ [next])
    else return before

end

/-- More steps than an expression of the tokens that are left can need: no more than six calls
are made for a token. -/
def exprFuel : Parser Nat := do return 8 * ((← get).rest.length + 2)

/-- An expression, however deep. -/
def expression : Parser Expr := do expr (← exprFuel)

/-- Expressions with commas between them. -/
def expressions : Parser (List Expr) := do
  let first ← expression
  exprsRest (← exprFuel) [first]

/-! ## Declarations -/

/-- The width of a declaration: the range in brackets, or one bit. -/
def range : Parser Width := do
  if ← acceptMark .leftBracket then
    let msb ← index
    expectMark .colon
    let lsb ← index
    if lsb ≠ 0 ∨ msb < lsb then
      unsupported s!"range [{msb}:{lsb}] (only [N:0] ranges are accepted)"
    match Width.ofNat? (msb + 1) with
    | some width =>
      expectMark .rightBracket
      return width
    | none => unsupported s!"range [{msb}:0] (widths are limited to 64 bits)"
  else return Width.one

/-- The direction of a port, if one is next. -/
def direction : Parser (Option Direction) := do
  match ← peek with
  | some (.keyword .input) =>
    skip
    return some .input
  | some (.keyword .output) =>
    skip
    return some .output
  | some (.keyword .inout) => unsupported "inout ports"
  | _ => return none

/-- May a declaration join an earlier one of its name? A wire may repeat a port of its width, or
of any width if it gives none; a port may take the place of a wire. -/
def mayJoin (m : Module) (existing decl : Decl) : Bool :=
  match existing.direction, decl.direction with
  | some _, none => decl.width = existing.width ∨ decl.width = Width.one
  | none, some _ => m.ports.contains decl.name
  | _, _ => false

/-- Replace the declaration of a name. -/
def replaceDecl (decl : Decl) : List Decl → List Decl
  | [] => []
  | d :: rest => if d.name = decl.name then decl :: rest else d :: replaceDecl decl rest

/-- Add a declaration to a module. -/
def declare (m : Module) (decl : Decl) : Except SourceError Module :=
  match m.decl? decl.name with
  | none => .ok { m with decls := m.decls ++ [decl] }
  | some existing =>
    if mayJoin m existing decl then
      .ok (if decl.direction.isSome then { m with decls := replaceDecl decl m.decls } else m)
    else .error (.duplicateDeclaration m.name decl.name decl.pos.line)

/-- Run `item` on a module once and then again behind every comma. -/
def separated {σ : Type} (item : σ → Parser σ) : (fuel : Nat) → σ → Parser σ
  | 0, _ => fail "list too long"
  | fuel + 1, s => do
    let s ← item s
    if ← acceptMark .comma then separated item fuel s else return s

/-- One or more items with commas between them; each takes a token at least. -/
def commaList {σ : Type} (item : σ → Parser σ) (s : σ) : Parser σ := do
  separated item ((← get).rest.length + 1) s

/-- The name of a port of the header, which is declared if it has a direction and a width. -/
def headerName (m : Module) (current : Option (Direction × Width)) :
    Parser (Module × Option (Direction × Width)) := do
  let pos ← position
  let name ← ident
  if m.ports.contains name then
    throw (.duplicateDeclaration m.name name pos.line)
  let m := { m with ports := m.ports ++ [name] }
  match current with
  | some (direction, width) =>
    let m ← declare m ⟨name, some direction, width, pos⟩
    return (m, current)
  | none => return (m, current)

/-- A port of the header; a direction and a width hold for the ports behind them too. -/
def headerPort (s : Module × Option (Direction × Width)) :
    Parser (Module × Option (Direction × Width)) := do
  let (m, current) := s
  let current ← match ← direction with
    | some direction =>
      let _ ← accept (.keyword .wire)
      let width ← range
      pure (some (direction, width))
    | none => pure current
  headerName m current

/-- A port of a port declaration in the body. -/
def bodyPort (direction : Direction) (width : Width) (m : Module) : Parser Module := do
  let pos ← position
  let name ← ident
  unless m.ports.contains name do
    throw (.grammar pos s!"'{name}' is not in the port list of '{m.name}'")
  declare m ⟨name, some direction, width, pos⟩

/-- A port declaration in the body. -/
def portDecl (m : Module) : Parser Module := do
  match ← direction with
  | none => fail "expected a port direction"
  | some direction =>
    let _ ← accept (.keyword .wire)
    let width ← range
    let m ← commaList (bodyPort direction width) m
    expectMark .semicolon
    return m

/-- A wire of a wire declaration, perhaps with its value. -/
def bodyWire (width : Width) (m : Module) : Parser Module := do
  let pos ← position
  let name ← ident
  let m ← declare m ⟨name, none, width, pos⟩
  if ← acceptMark .equals then
    let value ← expression
    return { m with assigns := m.assigns ++ [⟨name, value, pos⟩] }
  else return m

/-- A wire declaration. -/
def wireDecl (m : Module) : Parser Module := do
  expect (.keyword .wire)
  let width ← range
  let m ← commaList (bodyWire width) m
  expectMark .semicolon
  return m

/-! ## Assignments and instances -/

/-- An assignment of a list of assignments. -/
def assignment (m : Module) : Parser Module := do
  let pos ← position
  let target ← ident
  if (← peek) = some (.mark .leftBracket) then
    unsupported "part-select on the left-hand side of an assignment"
  expectMark .equals
  let value ← expression
  return { m with assigns := m.assigns ++ [⟨target, value, pos⟩] }

/-- A list of assignments. -/
def assignments (m : Module) : Parser Module := do
  expect (.keyword .assign)
  let m ← commaList assignment m
  expectMark .semicolon
  return m

/-- A connection by name. -/
def namedConnection (before : List (String × Option Expr)) :
    Parser (List (String × Option Expr)) := do
  expectMark .dot
  let port ← ident
  expectMark .leftParen
  let value ← if (← peek) = some (.mark .rightParen) then pure none
    else do pure (some (← expression))
  expectMark .rightParen
  return before ++ [(port, value)]

/-- The connections of an instance. -/
def connections : Parser Connections := do
  if (← peek) = some (.mark .dot) then
    return .named (← commaList namedConnection [])
  else if (← peek) = some (.mark .rightParen) then return .positional []
  else return .positional (← expressions)

/-- An instance of a list of instances of one module. -/
def oneInstance (target : String) (pos : Position) (m : Module) : Parser Module := do
  let name ← match ← peek with
    | some (.ident name) =>
      skip
      pure (some name)
    | _ => pure none
  expectMark .leftParen
  let wiring ← connections
  expectMark .rightParen
  return { m with instances := m.instances ++ [⟨target, name, wiring, pos⟩] }

/-- A list of instances of one module. -/
def instances (m : Module) : Parser Module := do
  let pos ← position
  let target ← ident
  let m ← commaList (oneInstance target pos) m
  expectMark .semicolon
  return m

/-! ## Modules -/

/-- The items of a module up to its end; each takes a token at least. -/
def body : (items : Nat) → Module → Parser Module
  | 0, _ => fail "missing 'endmodule'"
  | items + 1, m => do
    match ← peek with
    | none => fail "missing 'endmodule'"
    | some (.keyword .endmodule) =>
      skip
      return m
    | some (.keyword .input) | some (.keyword .output) | some (.keyword .inout) =>
      body items (← portDecl m)
    | some (.keyword .wire) => body items (← wireDecl m)
    | some (.keyword .assign) => body items (← assignments m)
    | some (.ident _) => body items (← instances m)
    | some other => fail ("unexpected " ++ other.text ++ " in module body")

/-- The ports of a header, behind its opening parenthesis. -/
def header (m : Module) : Parser Module := do
  if ← acceptMark .rightParen then return m
  else
    let (m, _) ← commaList headerPort (m, none)
    expectMark .rightParen
    return m

/-- What stands behind the header of the module of a name; it gives every port a direction. -/
def moduleRest (name : String) (pos : Position) (m : Module) : Parser Module := do
  expectMark .semicolon
  let m ← body ((← get).rest.length + 1) m
  match m.ports.find? fun p => ((m.decl? p).bind Decl.direction).isNone with
  | some port => throw (.grammar pos s!"port '{port}' of module '{name}' has no direction")
  | none => return m

/-- A module definition. -/
def module : Parser Module := do
  let pos ← position
  expect (.keyword .module)
  let name ← ident
  let m : Module := ⟨name, [], [], [], [], pos⟩
  let m ← if ← acceptMark .leftParen then header m else pure m
  moduleRest name pos m

/-- The modules that are left; each takes a token at least. -/
def modules : (count : Nat) → List Module → Parser (List Module)
  | 0, before => return before
  | count + 1, before => do
    match ← peek with
    | none => return before
    | some _ =>
      let m ← module
      if before.any fun other => other.name = m.name then
        throw (.duplicateModule m.name)
      modules count (before ++ [m])

end Parser

/-- The modules of a source text. -/
def parse (source : String) : Except SourceError SourceFile := do
  let tokens ← tokenize source
  let last := (tokens.getLast?.map Spanned.pos).getD .nowhere
  let (modules, _) ← (Parser.modules tokens.length []).run ⟨tokens, last⟩
  return ⟨modules⟩

end GateSynth.Verilog
