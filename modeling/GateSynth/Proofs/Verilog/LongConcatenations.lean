import GateSynth.Proofs.Verilog.LineIndex
import GateSynth.Proofs.Verilog.ModuleTexts
import GateSynth.Proofs.Verilog.Precedence
import GateSynth.Proofs.Verilog.TruthTests

/-!
# Long concatenations

The text of a module that assigns a concatenation of `n + 1` literals of 64 bits, for any number `n`.
It has the tokens that it shows (`exists_lexes_closing`), is parsed to the tree that it shows
(`parse_source`), and asks for no truth; but where the widths of its literals do not add up in 32
bits, elaboration does not come to the check of their sum (`compile_source`).
-/

namespace GateSynth.Verilog

/-! ## Tokens behind a place -/

/-- The characters have these tokens, however many lexemes more than characters are allowed for. -/
def Lexes (offset : Nat) (pos : Position) (text : List Char) (tokens : List Spanned) : Prop :=
  ∀ lexemes, text.length ≤ lexemes → tokenizeStepping lexemes offset pos text = .ok tokens

namespace Lexes

variable {offset : Nat} {pos : Position} {c : Char} {rest : List Char} {tokens : List Spanned}

theorem nil : Lexes offset pos [] [] := by
  intro lexemes _
  cases lexemes <;> rfl

/-- A lexeme has a character at least, so one less is enough for what is behind it. -/
theorem length_drop_le {lexeme : List Char} {v : Lexeme.Verdict} {lexemes : Nat}
    (hfront : Lexeme.front c rest = (lexeme, v)) (hv : v ≠ .bad)
    (hle : (c :: rest).length ≤ lexemes + 1) :
    ((c :: rest).drop lexeme.length).length ≤ lexemes := by
  obtain ⟨after, -, hcut⟩ := Lexeme.cut_of_front hfront hv
  have hpos := List.length_pos_iff.2 hcut.ne_nil
  rw [List.length_drop]
  omega

theorem token (lexeme : List Char) {t : Token}
    (hfront : Lexeme.front c rest = (lexeme, .token t))
    (h : Lexes (offset + Position.byteCount lexeme) (pos.advance lexeme)
      ((c :: rest).drop lexeme.length) tokens) :
    Lexes offset pos (c :: rest)
      (⟨t, offset, offset + Position.byteCount lexeme, pos⟩ :: tokens) := by
  intro lexemes hle
  cases lexemes with
  | zero => cases hle
  | succ lexemes =>
    rw [tokenizeStepping, hfront]
    dsimp only
    rw [h lexemes (length_drop_le hfront (fun hbad => by cases hbad) hle)]

theorem blank (lexeme : List Char) (hfront : Lexeme.front c rest = (lexeme, .blank))
    (h : Lexes (offset + Position.byteCount lexeme) (pos.advance lexeme)
      ((c :: rest).drop lexeme.length) tokens) : Lexes offset pos (c :: rest) tokens := by
  intro lexemes hle
  cases lexemes with
  | zero => cases hle
  | succ lexemes =>
    rw [tokenizeStepping, hfront]
    exact h lexemes (length_drop_le hfront (fun hbad => by cases hbad) hle)

end Lexes

namespace LongConcatenation

/-! ## The text -/

/-- So many literals with commas behind them, and one more up to the end of the module. -/
def closing : Nat → List Char
  | 0 => ['6', '4', '\x27', 'h', '0', '\x7d', ';', 'e', 'n', 'd', 'm', 'o', 'd', 'u', 'l', 'e']
  | n + 1 => '6' :: '4' :: '\x27' :: 'h' :: '0' :: ',' :: closing n

/-- A module that assigns a concatenation of so many literals of 64 bits and one more. -/
def source (n : Nat) : String := "module t(output y);assign y=\x7b" ++ String.ofList (closing n)

/-- A literal of 64 bits. -/
def literal : Expr := .number (some 64) 0

/-- The tree of the concatenation. -/
def tree (n : Nat) : Expr := .concat (List.replicate (n + 1) literal)

/-- The module that assigns an expression. -/
def module (e : Expr) : Module :=
  ⟨"t", ["y"], [⟨"y", some .output, .one, ⟨1, 17⟩⟩], [⟨"y", e, ⟨1, 27⟩⟩], [], ⟨1, 1⟩⟩

/-! ## Its tokens -/

/-- The tokens in front of the expression. -/
def header : List Spanned :=
  [⟨.keyword .module, 0, 6, ⟨1, 1⟩⟩, ⟨.ident "t", 7, 8, ⟨1, 8⟩⟩, ⟨.mark .leftParen, 8, 9, ⟨1, 9⟩⟩,
    ⟨.keyword .output, 9, 15, ⟨1, 10⟩⟩, ⟨.ident "y", 16, 17, ⟨1, 17⟩⟩,
    ⟨.mark .rightParen, 17, 18, ⟨1, 18⟩⟩, ⟨.mark .semicolon, 18, 19, ⟨1, 19⟩⟩,
    ⟨.keyword .assign, 19, 25, ⟨1, 20⟩⟩, ⟨.ident "y", 26, 27, ⟨1, 27⟩⟩,
    ⟨.mark .equals, 27, 28, ⟨1, 28⟩⟩]

/-- The literals behind the first one, with their tokens. -/
def others (n : Nat) : List (List Token × Expr) := List.replicate n ([.sized 64 0], literal)

theorem exists_closing (n : Nat) : ∃ text, closing n = '6' :: text := by
  cases n with
  | zero => exact ⟨_, rfl⟩
  | succ n => exact ⟨_, rfl⟩

theorem lexes_header {text : List Char} {tokens : List Spanned}
    (h : Lexes 29 ⟨1, 30⟩ ('6' :: text) tokens) :
    Lexes 0 .first
      (['m', 'o', 'd', 'u', 'l', 'e', ' ', 't', '(', 'o', 'u', 't', 'p', 'u', 't', ' ', 'y', ')',
        ';', 'a', 's', 's', 'i', 'g', 'n', ' ', 'y', '=', '\x7b'] ++ '6' :: text)
      (header ++ ⟨.mark .leftBrace, 28, 29, ⟨1, 29⟩⟩ :: tokens) := by
  refine .token ['m', 'o', 'd', 'u', 'l', 'e'] rfl ?_
  refine .blank [' '] rfl ?_
  refine .token ['t'] rfl ?_
  refine .token ['('] rfl ?_
  refine .token ['o', 'u', 't', 'p', 'u', 't'] rfl ?_
  refine .blank [' '] rfl ?_
  refine .token ['y'] rfl ?_
  refine .token [')'] rfl ?_
  refine .token [';'] rfl ?_
  refine .token ['a', 's', 's', 'i', 'g', 'n'] rfl ?_
  refine .blank [' '] rfl ?_
  refine .token ['y'] rfl ?_
  refine .token ['='] rfl ?_
  exact .token ['\x7b'] rfl h

theorem tokenize_source {n : Nat} {tokens : List Spanned}
    (h : Lexes 29 ⟨1, 30⟩ (closing n) tokens) :
    tokenize (source n) = .ok (header ++ ⟨.mark .leftBrace, 28, 29, ⟨1, 29⟩⟩ :: tokens) := by
  obtain ⟨text, htext⟩ := exists_closing n
  rw [htext] at h
  unfold source
  rw [← String.ofList_append, tokenize_ofList, htext]
  exact lexes_header h _ (Nat.le_refl _)

/-- By induction on the literals: each is one token, and so is the comma behind it. -/
theorem exists_lexes_closing (n offset : Nat) (pos : Position) :
    ∃ (literals : List Spanned) (semicolon last : Spanned),
      Lexes offset pos (closing n) (literals ++ [semicolon, last]) ∧
      literals.map Spanned.token = .sized 64 0 ::
        ((others n).flatMap (fun part => .mark .comma :: part.1) ++ [.mark .rightBrace]) ∧
      semicolon.token = .mark .semicolon ∧ last.token = .keyword .endmodule := by
  induction n generalizing offset pos with
  | zero =>
    exact ⟨[_, _], _, _, .token ['6', '4', '\x27', 'h', '0'] rfl (.token ['\x7d'] rfl
      (.token [';'] rfl (.token ['e', 'n', 'd', 'm', 'o', 'd', 'u', 'l', 'e'] rfl .nil))),
      rfl, rfl, rfl⟩
  | succ n ih =>
    obtain ⟨text, htext⟩ := exists_closing n
    obtain ⟨literals, semicolon, last, hlexes, hliterals, hlast⟩ := ih _ _
    rw [htext] at hlexes
    have hfront : Lexeme.front '6' ('4' :: '\x27' :: 'h' :: '0' :: ',' :: '6' :: text) =
        (['6', '4', '\x27', 'h', '0'], .token (.sized 64 0)) := rfl
    rw [closing, htext]
    exact ⟨_ :: _ :: literals, semicolon, last, .token _ hfront (.token [','] rfl hlexes),
      congrArg (Token.sized 64 0 :: Token.mark .comma :: ·) hliterals, hlast⟩

/-! ## Its tree -/

theorem eq_of_unplaced_literal {e : Expr} (h : e.unplaced = literal) : e = literal := by
  cases e <;> simp_all [Expr.unplaced, literal]

theorem eq_of_unplaced_tree {n : Nat} {e : Expr} (h : e.unplaced = tree n) : e = tree n := by
  cases e with
  | concat parts =>
    rw [Expr.unplaced, Expr.unplacedAll_eq_map] at h
    obtain ⟨hlength, hall⟩ := List.eq_replicate_iff.1 (Expr.concat.inj h)
    rw [List.length_map] at hlength
    refine congrArg Expr.concat (List.eq_replicate_iff.2 ⟨hlength, fun part hpart => ?_⟩)
    exact eq_of_unplaced_literal (hall _ (List.mem_map_of_mem hpart))
  | _ => cases h

theorem derives_tree (n : Nat) : Derives .expr (.mark .leftBrace :: .sized 64 0 ::
    ((others n).flatMap (fun part => .mark .comma :: part.1) ++ [.mark .rightBrace])) (tree n) := by
  have hliteral : Derives .expr [.sized 64 0] literal :=
    .plain ((Derives.sized 64 0).joined (Nat.zero_le _))
  have htree : tree n = .concat (literal :: (others n).map Prod.snd) := by
    rw [tree, others, List.map_replicate, List.replicate_succ]
  rw [htree]
  refine .plain ((Derives.concat hliteral fun part hpart => ?_).joined (Nat.zero_le _))
  rw [List.eq_of_mem_replicate hpart]
  exact hliteral

open GateSynth.Verilog.Parser in
/-- The module is parsed once its expression is. -/
theorem run_modules {rest : List Spanned} {semicolon last : Spanned} {e : Expr} {pos : Position}
    (count : Nat) (h : expression.run ⟨rest, pos⟩ = .ok (e, ⟨[semicolon, last], pos⟩))
    (hsemicolon : semicolon.token = .mark .semicolon) (hlast : last.token = .keyword .endmodule) :
    (modules (count + 1) []).run ⟨header ++ rest, pos⟩ = .ok ([module e], ⟨[], pos⟩) := by
  let m : Module := { module e with assigns := [] }
  let target : Cursor := ⟨header.drop 8 ++ rest, pos⟩
  let assign : Cursor := ⟨header.drop 7 ++ rest, pos⟩
  have hassignment : (assignment m).run target =
      expression.run ⟨rest, pos⟩ >>= fun r => .ok (module r.1, r.2) := rfl
  rw [h] at hassignment
  obtain ⟨_, _, _, _⟩ := semicolon
  obtain ⟨_, _, _, _⟩ := last
  subst hsemicolon hlast
  have hlist : (commaList assignment m).run target = .ok (module e, ⟨_, pos⟩) :=
    run_bind_iff.2 ⟨_, target, rfl, run_bind_iff.2 ⟨_, _, hassignment, rfl⟩⟩
  have hassignments : (assignments m).run assign = .ok (module e, ⟨_, pos⟩) :=
    run_expect_bind_iff.2 ⟨rfl, run_bind_iff.2 ⟨_, _, hlist, rfl⟩⟩
  have hbody : (body (rest.length + 3 + 1) m).run assign = .ok (module e, ⟨[], pos⟩) :=
    run_bind_iff.2 ⟨_, assign, rfl, run_bind_iff.2 ⟨_, _, hassignments, rfl⟩⟩
  have hcomplete : (module e).outline.Complete := by
    intro p hp
    obtain rfl := List.mem_singleton.1 hp
    rfl
  have hmodule : Parser.module.run ⟨header ++ rest, pos⟩ = .ok (module e, ⟨[], pos⟩) :=
    run_module_iff.2 ⟨rfl, ("t", m), ⟨header.drop 6 ++ rest, pos⟩, rfl,
      run_moduleRest_iff.2 ⟨rfl, hbody, hcomplete⟩⟩
  exact (run_modules_succ_iff rfl).2 ⟨_, _, hmodule, nofun, by cases count <;> rfl⟩

theorem parse_source (n : Nat) : parse (source n) = .ok ⟨[module (tree n)]⟩ := by
  obtain ⟨literals, semicolon, last, hlexes, hliterals, hsemicolon, hlast⟩ :=
    exists_lexes_closing n 29 ⟨1, 30⟩
  have htokens := tokenize_source hlexes
  have hderives := derives_tree n
  rw [← hliterals] at hderives
  have hstops : ∀ s ∈ [semicolon, last].head?, s.token.Stops := by
    rintro s ⟨⟩
    rw [hsemicolon]
    decide
  let tokens := ⟨.mark .leftBrace, 28, 29, ⟨1, 29⟩⟩ :: literals
  have hreads : ∀ pos, Parser.expression.Reads ⟨tokens ++ [semicolon, last], pos⟩ (tree n)
      ⟨[semicolon, last], pos⟩ := fun _ => reads_expression hderives hstops
  have hmodules : ∀ count pos, (Parser.modules (count + 1) []).run
      ⟨header ++ (tokens ++ [semicolon, last]), pos⟩ = .ok ([module (tree n)], ⟨[], pos⟩) := by
    intro count pos
    obtain ⟨e, hrun, he⟩ := hreads pos
    rw [eq_of_unplaced_tree he] at hrun
    exact run_modules count hrun hsemicolon hlast
  rw [parse, htokens]
  exact congrArg (· >>= fun r : List Module × Cursor => Except.ok (SourceFile.mk r.1))
    (hmodules _ _)

theorem top_module (e : Expr) : SourceFile.top ⟨[module e]⟩ none = .ok (module e) := rfl

/-- Literals ask for no truth. -/
theorem not_testsWord (n : Nat) :
    ¬ SourceFile.TestsWord ⟨[module (tree n)]⟩ (module (tree n)) := by
  rw [SourceFile.TestsWord, SourceFile.computes_iff]
  rintro (⟨a, ha, htests⟩ | ⟨i, hi, -⟩)
  · obtain rfl := List.mem_singleton.1 ha
    obtain ⟨part, hpart, x, hx, -⟩ := Expr.testsWord_concat.1 htests
    rw [List.eq_of_mem_replicate hpart] at hx
    cases hx
  · cases hi

/-! ## The sum of its widths -/

open Elaborate

theorem selfBits_replicate (scope : Scope) (site : Site) (n : Nat) {before : Nat}
    (h : UInt32.size ≤ before + 64 * n) (hbefore : before < UInt32.size) :
    selfBits scope site before (List.replicate n literal) = .error .beyondWord := by
  induction n generalizing before with
  | zero => exact absurd h (Nat.not_le_of_lt hbefore)
  | succ n ih =>
    have hliteral : selfWidth scope site literal = .ok ⟨64, by decide, by decide⟩ := rfl
    rw [List.replicate_succ, selfBits, hliteral]
    change (if before + 64 < UInt32.size then _ else _) = _
    split
    · next hlt =>
      refine ih ?_ hlt
      change UInt32.size ≤ before + 64 + 64 * n
      omega
    · rfl

/-- The width of the assigned expression is asked for before anything is made of it. -/
theorem elaborate_module {e : Expr}
    (h : ∀ scope site, selfWidth scope site e = .error .beyondWord) :
    elaborate ⟨[module e]⟩ none = .error .beyondWord := by
  let scope : Scope := ⟨module e, "", .empty⟩
  have hassign : ∀ n, (assign scope ⟨"y", e, ⟨1, 27⟩⟩).run n = .error .beyondWord := fun n => by
    change (liftM (selfWidth scope ⟨"t", 1⟩ e) >>= fun own => do
      let value ← lower scope ⟨"t", 1⟩ e (Width.one.max own) (some "y")
      drive ⟨"t", 1⟩ "y" value .one : Build Unit).run n = _
    rw [h]
    rfl
  have hbody : ∀ n, (moduleBody ⟨[module e]⟩ 1 ["t"] scope).run n = .error .beyondWord :=
    fun n => by
      rw [moduleBody, StateT.run_bind]
      change (((assign scope ⟨"y", e, ⟨1, 27⟩⟩).run n >>= fun _ => _) >>= _) = _
      rw [hassign]
      rfl
  change ((moduleBody ⟨[module e]⟩ 1 ["t"] scope).run _ >>= _) = _
  rw [hbody]
  rfl

/-- Literals of 64 bits whose widths do not add up in 32 bits. -/
theorem compile_source {n : Nat} (h : UInt32.size ≤ 64 * (n + 1)) :
    compile (source n) none = .error .beyondWord := by
  rw [compile, parse_source]
  refine elaborate_module fun scope site => ?_
  rw [tree, selfWidth, selfBits_replicate scope site (n + 1) (by rwa [Nat.zero_add]) (by decide)]
  rfl

end LongConcatenation

end GateSynth.Verilog
