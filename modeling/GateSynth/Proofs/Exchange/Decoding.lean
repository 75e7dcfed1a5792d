import GateSynth.Netlist.Exchange
import GateSynth.Proofs.Json.Reading
import GateSynth.Proofs.Tables
import Mathlib.Data.List.Basic

/-!
# Decoding what was encoded

The JSON text of a record is read and decoded as that record (`Record.decode_render`), if its
identifiers, ports and widths are within the bounds that the format sets them and no key comes
twice (`Record.Encodable`). Each decoder undoes its encoder; records go field by field, where a
field that is left out is the one with the default value.
-/

namespace GateSynth

/-! ## Numerals -/

namespace Numeral

theorem digit?_of_isDigit {c : Char} (h : c.isDigit = true) :
    digit? 10 c = some (c.toNat - '0'.toNat) := by
  obtain ⟨hlow, hhigh⟩ := Char.isDigit_iff_toNat.1 h
  have hrange : '0' ≤ c ∧ c ≤ '9' := ⟨Char.le_def.2 hlow, Char.le_def.2 hhigh⟩
  have hlt : c.toNat - '0'.toNat < 10 := by
    have : '9'.toNat = 57 := rfl
    have : '0'.toNat = 48 := rfl
    omega
  simp only [digit?, if_pos hrange, if_pos hlt]

/-- Digits are read as the number that they write. -/
theorem continue?_of_isDigit {cs : List Char} (h : ∀ c ∈ cs, c.isDigit = true) (value : Nat) :
    continue? 10 value cs = some (Nat.ofDigitChars 10 cs value) := by
  induction cs generalizing value with
  | nil => rfl
  | cons c rest ih =>
    rw [List.forall_mem_cons] at h
    rw [continue?, digit?_of_isDigit h.1]
    simp only
    rw [ih h.2, Nat.ofDigitChars_cons, Nat.mul_comm]

theorem isDigit_of_mem_toDigits {k : Nat} {c : Char} (h : c ∈ Nat.toDigits 10 k) :
    c.isDigit = true :=
  Nat.isDigit_of_mem_toDigits (by decide) (by decide) h

/-- A number below the bound is read back from its digits. -/
theorem unsigned?_toDigits {bound k : Nat} (h : k < bound) :
    unsigned? bound (Nat.toDigits 10 k) = some k := by
  obtain ⟨c, cs, hcs⟩ := List.exists_cons_of_ne_nil (Nat.toDigits_ne_nil (n := k) (b := 10))
  have hdigits : ∀ d ∈ c :: cs, d.isDigit = true := fun d hd =>
    isDigit_of_mem_toDigits (hcs ▸ hd)
  have hplus : c ≠ '+' := by
    rintro rfl
    exact absurd (hdigits '+' (.head _)) (by decide)
  have hvalue : ofDigits? 10 (c :: cs) = some k := by
    rw [ofDigits?, continue?_of_isDigit hdigits, ← hcs, Nat.ofDigitChars_ten_toDigits]
    simp
  rw [hcs, unsigned?, hvalue]
  · exact if_pos h
  · exact fun _ heq => hplus (List.cons.inj heq).1

end Numeral

theorem Decimal.natural?_ofNat (k : Nat) : (Decimal.ofNat k).natural? = some k := by
  have hvalue : ∀ (cs : List Char) (value : Nat),
      (cs.map fun c => c.toNat - '0'.toNat).foldl (fun value d => value * 10 + d) value =
        Nat.ofDigitChars 10 cs value := by
    intro cs
    induction cs with
    | nil => intro value; rfl
    | cons c rest ih =>
      intro value
      rw [List.map_cons, List.foldl_cons, ih, Nat.ofDigitChars_cons, Nat.mul_comm]
  rw [natural?, ofNat]
  simp only [Option.isSome_none, Bool.or_self, Bool.false_eq_true, if_false, digitsValue]
  rw [hvalue, Nat.ofDigitChars_ten_toDigits]

theorem NodeId.ofText?_text {id : NodeId} (h : id.index < UInt32.size) :
    NodeId.ofText? id.text = some id := by
  have htext : id.text.toList = 'n' :: Nat.toDigits 10 id.index := by
    simp [NodeId.text]
  rw [NodeId.ofText?, htext]
  simp only
  rw [Numeral.unsigned?_toDigits h]
  rfl

/-! ## Values -/

namespace Json

variable {α β κ : Type}

@[simp] theorem string?_ofString (text : String) : (ofString text).string? = some text := rfl

theorem natBelow?_ofNat {bound k : Nat} (h : k < bound) : (ofNat k).natBelow? bound = some k := by
  rw [ofNat, natBelow?, Decimal.natural?_ofNat]
  exact if_pos h

@[simp] theorem word?_ofNat (v : Word) : (ofNat v.toNat).word? = some v := by
  rw [word?, natBelow?_ofNat v.toNat_lt, Option.map_some, UInt64.ofNat_toNat]

/-- Decoding undoes encoding item by item. -/
theorem mapM_map_eq_some {decode : β → Option α} {encode : α → β} {xs : List α}
    (h : ∀ x ∈ xs, decode (encode x) = some x) : (xs.map encode).mapM decode = some xs := by
  induction xs with
  | nil => rfl
  | cons x rest ih =>
    rw [List.forall_mem_cons] at h
    rw [List.map_cons, List.mapM_cons, h.1, ih h.2]
    rfl

@[simp] theorem optional?_ofNat (decode : Json → Option α) (k : Nat) :
    optional? decode (ofNat k) = (decode (ofNat k)).map some := rfl

@[simp] theorem optional?_ofString (decode : Json → Option α) (text : String) :
    optional? decode (ofString text) = (decode (ofString text)).map some := rfl

@[simp] theorem optional?_array (decode : Json → Option α) (items : List Json) :
    optional? decode (array items) = (decode (array items)).map some := rfl

theorem list?_array {decode : Json → Option α} {encode : α → Json} {xs : List α}
    (h : ∀ x ∈ xs, decode (encode x) = some x) :
    list? decode (array (xs.map encode)) = some xs :=
  mapM_map_eq_some h

@[simp] theorem members?_ofMembers (members : List (String × Json)) :
    (ofMembers members).members? = some members :=
  mapM_map_eq_some fun _ _ => rfl

/-- A table is decoded entry by entry. -/
theorem map?_ofMembers [DecidableEq κ] {key? : String → Option κ} {value? : Json → Option α}
    (key : κ → String) {encode : α → Json} {t : Table κ α} (hnodup : t.keys.Nodup)
    (hkey : ∀ k ∈ t.keys, key? (key k) = some k)
    (hvalue : ∀ e ∈ t.entries, value? (encode e.2) = some e.2) :
    map? key? value? (ofMembers (t.entries.map fun e => (key e.1, encode e.2))) = some t := by
  have hentries : (t.entries.map fun e => (key e.1, encode e.2)).mapM
      (fun m => do return (← key? m.1, ← value? m.2)) = some t.entries := by
    refine mapM_map_eq_some fun e he => ?_
    simp [hkey e.1 (List.mem_map_of_mem he), hvalue e he]
  rw [map?, members?_ofMembers]
  refine (congrArg (· >>= fun entries => some (Table.ofList entries)) hentries).trans ?_
  exact congrArg some (Table.ofList_of_nodup hnodup)

/-! ## Fields -/

/-- The value of one field of a record, if it is given. -/
def field? (members : List (String × Json)) (name : String) : Option (Option Json) :=
  match members.filter fun m => m.1 = name with
  | [] => some none
  | [m] => some (some m.2)
  | _ => none

theorem fields?_ofMembers (names : List String) (members : List (String × Json)) :
    fields? names (ofMembers members) = names.mapM (field? members) := by
  rw [ofMembers, fields?, ← ofMembers, members?_ofMembers]
  rfl

end Json

/-! ## Records -/

namespace Exchange

open Json

theorem fanin?_faninJson (f : Fanin) : fanin? (faninJson f) = some f := by
  obtain ⟨signal, inverted⟩ := f
  rw [fanin?, faninJson, fields?_ofMembers]
  cases inverted <;> simp [field?, required?, defaulted?, bool?]

theorem wire?_wireJson {w : Wire} (hnode : w.node.index < UInt32.size)
    (hport : w.port < UInt64.size) :
    wire? (wireJson w) = some w := by
  obtain ⟨source, node, port⟩ := w
  rw [wire?, wireJson, fields?_ofMembers]
  simp [field?, required?, sink?, fields?_ofMembers, nodeId?, NodeId.ofText?_text hnode,
    natBelow?_ofNat hport]

/-- An optional member is found under its own name only. -/
theorem filter_optionalMember {α : Type} (name other : String) (json : α → Json)
    (value : Option α) : (optionalMember name json value).filter (fun m => m.1 = other) =
      if name = other then optionalMember name json value else [] := by
  cases value with
  | none => rw [optionalMember, List.filter_nil, ite_self]
  | some x => rw [optionalMember, List.filter_cons, List.filter_nil]; simp

/-- Where the members of a name are those of an optional member, its value is the field. -/
theorem field?_of_filter {α : Type} {members : List (String × Json)} {name : String}
    {json : α → Json} {value : Option α}
    (h : (members.filter fun m => m.1 = name) = optionalMember name json value) :
    field? members name = some (value.map json) := by
  rw [field?, h]
  cases value <;> rfl

theorem defaulted?_map {α : Type} {decode : Json → Option (Option α)} {json : α → Json}
    (h : ∀ x, decode (json x) = some (some x)) (value : Option α) :
    defaulted? decode none (value.map json) = some value := by
  cases value with
  | none => rfl
  | some x => exact h x

/-- The fanins of a node are an optional member, which is missing if there are none. -/
theorem exists_fanins_member (fanins : List Fanin) : ∃ stored : Option (List Fanin),
    (if fanins.isEmpty then [] else [("fanins", array (fanins.map faninJson))]) =
      optionalMember "fanins" (fun fs : List Fanin => array (fs.map faninJson)) stored ∧
    defaulted? (list? fanin?) [] (stored.map fun fs => array (fs.map faninJson)) = some fanins := by
  cases fanins with
  | nil => exact ⟨none, rfl, rfl⟩
  | cons f rest => exact ⟨some (f :: rest), rfl, list?_array fun f _ => fanin?_faninJson f⟩

theorem nodeRecord?_nodeJson (r : NodeRecord) : nodeRecord? (nodeJson r) = some r := by
  have hword : ∀ v : Word, optional? word? (ofNat v.toNat) = some (some v) := by simp
  have hstring : ∀ text, optional? string? (ofString text) = some (some text) := by simp
  obtain ⟨stored, hmember, hfanins⟩ := exists_fanins_member r.fanins
  rw [nodeRecord?, nodeJson, fields?_ofMembers, hmember]
  generalize hmembers : _ ++ optionalMember "init" (fun v : Word => .ofNat v.toNat) r.init = members
  -- every name is that of one member, which may be missing
  have htype : field? members "type" = some (some (ofString r.type)) := by
    simp [← hmembers, field?, filter_optionalMember]
  have houtput : field? members "output" = some (some (ofString r.output)) := by
    simp [← hmembers, field?, filter_optionalMember]
  have hoptional : field? members "fanins" = some (stored.map fun fs => array (fs.map faninJson)) ∧
      field? members "value" = some (r.value.map fun v => .ofNat v.toNat) ∧
      field? members "module" = some (r.module.map .ofString) ∧
      field? members "init" = some (r.init.map fun v => .ofNat v.toNat) := by
    refine ⟨field?_of_filter ?_, field?_of_filter ?_, field?_of_filter ?_, field?_of_filter ?_⟩ <;>
      simp [← hmembers, filter_optionalMember]
  obtain ⟨hfs, hvalue, hmodule, hinit⟩ := hoptional
  simp [htype, houtput, hfs, hvalue, hmodule, hinit, required?, hfanins, defaulted?_map hword,
    defaulted?_map hstring]

/-- The numbers of the record are in the range that the format gives them, and the keys of its
tables are distinct. -/
structure Record.Encodable (r : Record) : Prop where
  nodes_nodup : r.nodes.keys.Nodup
  /-- Identifiers have 32 bits. -/
  ids : ∀ id ∈ r.nodes.keys, id.index < UInt32.size
  /-- So have those of the wires, and ports have 64 bits. -/
  wires : ∀ wires, r.wires = some wires → ∀ w ∈ wires,
    w.node.index < UInt32.size ∧ w.port < UInt64.size
  widths_nodup : r.widths.keys.Nodup
  /-- Widths have 32 bits. -/
  widths : ∀ e ∈ r.widths.entries, e.2 < UInt32.size

theorem record?_recordJson {r : Record} (h : r.Encodable) : record? (recordJson r) = some r := by
  obtain ⟨name, inputs, outputs, nodes, wires, widths⟩ := r
  have hnames : ∀ names : List String, list? string? (array (names.map ofString)) = some names :=
    fun names => list?_array fun _ _ => rfl
  have hnodes : map? NodeId.ofText? nodeRecord?
      (ofMembers (nodes.entries.map fun e => (e.1.text, nodeJson e.2))) = some nodes :=
    map?_ofMembers NodeId.text h.nodes_nodup
      (fun id hid => NodeId.ofText?_text (h.ids id hid)) fun e _ => nodeRecord?_nodeJson e.2
  have hwidths : map? some (natBelow? UInt32.size)
      (ofMembers (widths.entries.map fun e => (e.1, ofNat e.2))) = some widths :=
    map?_ofMembers (fun signal => signal) h.widths_nodup (fun _ _ => rfl)
      fun e he => natBelow?_ofNat (h.widths e he)
  have hwires : ∀ ws, wires = some ws → list? wire? (array (ws.map wireJson)) = some ws :=
    fun ws hws => list?_array fun w hw =>
      wire?_wireJson (h.wires ws hws w hw).1 (h.wires ws hws w hw).2
  rw [record?, recordJson, fields?_ofMembers]
  cases wires with
  | none =>
    simp [field?, required?, defaulted?, optionalMember, attributes?, fields?_ofMembers, hnames,
      hnodes, hwidths]
  | some ws =>
    simp [field?, required?, defaulted?, optionalMember, attributes?, fields?_ofMembers, hnames,
      hnodes, hwidths, hwires ws rfl]

/-! ## The text of a record -/

theorem plain_optionalMember {α : Type} {name : String} {json : α → Json} (h : ∀ x, Plain (json x))
    (value : Option α) : ∀ m ∈ optionalMember name json value, Plain m.2 := by
  intro m hm
  cases value with
  | none => cases hm
  | some x =>
    rw [List.mem_singleton.1 hm]
    exact h x

theorem plain_faninJson (f : Fanin) : Plain (faninJson f) := by
  refine .ofMembers (List.forall_mem_cons.2 ⟨.ofString _, fun m hm => ?_⟩)
  split at hm
  · rw [List.mem_singleton.1 hm]
    exact .bool true
  · cases hm

theorem plain_array_map {α : Type} {json : α → Json} (h : ∀ x, Plain (json x)) (xs : List α) :
    Plain (.array (xs.map json)) := by
  refine .array fun item hitem => ?_
  obtain ⟨x, -, rfl⟩ := List.mem_map.1 hitem
  exact h x

theorem plain_ofMembers_map {α : Type} (key : α → String) {json : α → Json}
    (h : ∀ x, Plain (json x)) (xs : List α) :
    Plain (.ofMembers (xs.map fun x => (key x, json x))) := by
  refine .ofMembers fun m hm => ?_
  obtain ⟨x, -, rfl⟩ := List.mem_map.1 hm
  exact h x

theorem plain_wireJson (w : Wire) : Plain (wireJson w) := by
  refine .ofMembers ?_
  simp only [List.forall_mem_cons]
  refine ⟨.ofString _, .ofMembers ?_, fun _ h => absurd h List.not_mem_nil⟩
  simp only [List.forall_mem_cons]
  exact ⟨.ofString _, .ofNat _, fun _ h => absurd h List.not_mem_nil⟩

theorem plain_nodeJson (r : NodeRecord) : Plain (nodeJson r) := by
  refine .ofMembers ?_
  simp only [List.forall_mem_append, List.forall_mem_singleton]
  refine ⟨⟨⟨⟨⟨.ofString _, fun m hm => ?_⟩, .ofString _⟩, plain_optionalMember ?_ _⟩,
    plain_optionalMember ?_ _⟩, plain_optionalMember ?_ _⟩
  · split at hm
    · cases hm
    · rw [List.mem_singleton.1 hm]
      exact plain_array_map plain_faninJson _
  · exact fun v => .ofNat _
  · exact Plain.ofString
  · exact fun v => .ofNat _

theorem plain_recordJson (r : Record) : Plain (recordJson r) := by
  have hwires : ∀ wires : List Wire, Plain (.array (wires.map wireJson)) :=
    plain_array_map plain_wireJson
  have hnodes := plain_ofMembers_map (fun e : NodeId × NodeRecord => e.1.text)
    (fun e => plain_nodeJson e.2) r.nodes.entries
  have hwidths := plain_ofMembers_map (fun e : String × Nat => e.1)
    (fun e => .ofNat e.2) r.widths.entries
  refine .ofMembers ?_
  simp only [List.forall_mem_append, List.forall_mem_cons]
  refine ⟨⟨⟨.ofString _, plain_array_map .ofString _, plain_array_map .ofString _, hnodes,
    fun _ h => absurd h List.not_mem_nil⟩, plain_optionalMember hwires _⟩, .ofMembers ?_,
    fun _ h => absurd h List.not_mem_nil⟩
  exact List.forall_mem_singleton.2 hwidths

/-- The text of a record is decoded as the record. -/
theorem Record.decode_render {r : Record} (h : r.Encodable) :
    (Json.parse? (recordJson r).render).bind record? = some r := by
  rw [parse?_render (plain_recordJson r)]
  exact record?_recordJson h

end Exchange

end GateSynth
