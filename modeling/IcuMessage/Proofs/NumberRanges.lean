/-
Numerals in a source, in the place of an id or of an offset. Whatever a numeral
stands for besides an integer that its place takes, the source is refused
(`Slot.not_read`), so those taken are exactly the indices (`Numeral.IsIndex`) and
the offsets (`Numeral.IsOffset`). They are printed as they were written, since an
integer has no other numeral (`Numeral.integer_toInt`).
-/
import IcuMessage.Proofs.Message.Numbers

namespace IcuMessage

open Json

variable {α : Type}

/-! ## Numerals in a source -/

theorem Message.read_iff {p : Prop} [Decidable p] {source : String}
    (hread : p → ∃ m, Message.read source = .ok m)
    (hnot : ¬p → ∃ cause, Message.read source = .error cause) :
    (∃ m, Message.read source = .ok m) ↔ p := by
  refine ⟨fun ⟨m, hm⟩ => ?_, hread⟩
  refine Decidable.byContradiction fun hp => ?_
  obtain ⟨cause, hcause⟩ := hnot hp
  nomatch hm.symm.trans hcause

/-- The source with the numeral in the hole. -/
def Json.Numeral.within (n : Numeral) (lead trail : List Char) : String :=
  String.ofList (lead ++ n.text ++ trail)

theorem Json.Numeral.toList_within (n : Numeral) (lead trail : List Char) :
    (n.within lead trail).toList = lead ++ n.text ++ trail :=
  String.toList_ofList

theorem Json.Numeral.within_eq_append {n : Numeral} {text : String} (h : n.text = text.toList)
    (lead trail : String) : n.within lead.toList trail.toList = lead ++ text ++ trail := by
  rw [Numeral.within, h, ← String.toList_append, ← String.toList_append, String.ofList_toList]

section

variable {encode : Value → Value} {decode : Decoder α} {c : Context} {lead trail : List Char}
  {n : Numeral}

theorem Message.read_within (hc : c.Text lead trail) (hholds : c.Holds encode)
    (hd : (c.fill .null).depth ≤ maxNesting) (hi : n.IsInteger) (hr : Numeral.InRange n.toInt)
    {m : Message} (hm : encode (.int n.toInt) = Message.encode m) :
    Message.read (n.within lead trail) = .ok m := by
  have ht : (c.fill (.int n.toInt)).Text (n.within lead trail).toList := by
    rw [Numeral.toList_within]
    exact hc.fill (Numeral.text_int hi hr)
  refine Message.read_of_reshaped (hm ▸ hholds (.int n.toInt) rfl) ht ?_
  rwa [c.depth_fill (show (Value.int n.toInt).depth = Value.null.depth from rfl)]

theorem Slot.not_read_of_text (h : Slot encode decode) (hc : c.Text lead trail)
    (hholds : c.Holds encode) {x : Value} (hx : x.Text n.text) (hd : x.depth = 0)
    (hno : ∀ a, decode x ≠ .ok a) : ∃ cause, Message.read (n.within lead trail) = .error cause := by
  refine Message.not_read_of_undecodable ?_ (h.undecodable x _ hd hno (hholds x hd))
  rw [Numeral.toList_within]
  exact hc.fill hx

theorem Slot.not_read_of_unreadable (h : Slot encode decode) (hc : c.Text lead trail)
    (hholds : c.Holds encode) (hu : Unreadable n.text) :
    ∃ cause, Message.read (n.within lead trail) = .error cause := by
  refine Message.not_read_of_refuses ?_
  rw [Numeral.toList_within]
  exact Message.refuses_of_hole hc (h.inElements hholds) hu 124

/-- A numeral is refused with what it stands for: a double, no value at all, or an integer that its
place does not take. -/
theorem Slot.not_read (h : Slot encode decode) (hc : c.Text lead trail) (hholds : c.Holds encode)
    (hint : n.IsInteger → Numeral.InRange n.toInt → ∀ a, decode (.int n.toInt) ≠ .ok a) :
    ∃ cause, Message.read (n.within lead trail) = .error cause := by
  by_cases hn : n.IsInteger ∧ Numeral.InRange n.toInt
  · exact h.not_read_of_text hc hholds (Numeral.text_int hn.1 hn.2) rfl (hint hn.1 hn.2)
  · rcases Numeral.float_or_unreadable hn with ⟨bits, ht⟩ | hu
    · exact h.not_read_of_text hc hholds ht rfl (h.float bits)
    · exact h.not_read_of_unreadable hc hholds hu

end

/-! ## Ids -/

/-- Digits alone, of a number below 2^64. -/
def Json.Numeral.IsIndex (n : Numeral) : Prop :=
  n.negative = false ∧ n.fraction = none ∧ n.exponent = none ∧
    Decimal.value n.whole < 18446744073709551616

instance : DecidablePred Json.Numeral.IsIndex := fun n => inferInstanceAs (Decidable
  (n.negative = false ∧ n.fraction = none ∧ n.exponent = none ∧
    Decimal.value n.whole < 18446744073709551616))

theorem Json.Numeral.IsIndex.toInt_eq {n : Numeral} (h : n.IsIndex) :
    n.toInt = Decimal.value n.whole := by
  rw [Numeral.toInt, h.1, if_neg Bool.false_ne_true]

theorem Json.Numeral.IsIndex.isInteger {n : Numeral} (h : n.IsIndex) : n.IsInteger := by
  obtain ⟨hn, hf, he, -⟩ := h
  exact n.isInteger_iff.mpr ⟨hf, he, by simp [hn]⟩

theorem Json.Numeral.isIndex_iff (n : Numeral) :
    n.IsIndex ↔ n.IsInteger ∧ 0 ≤ n.toInt ∧ n.toInt < UInt64.size := by
  constructor
  · intro h
    rw [h.toInt_eq]
    exact ⟨h.isInteger, Int.natCast_nonneg _, Int.ofNat_lt.mpr h.2.2.2⟩
  · rintro ⟨hi, hpos, hlt⟩
    obtain ⟨hf, he, hzero⟩ := n.isInteger_iff.mp hi
    rw [Numeral.toInt] at hpos hlt
    cases hn : n.negative with
    | true =>
      rw [hn, if_pos rfl] at hpos
      exact absurd ⟨hn, by omega⟩ hzero
    | false =>
      rw [hn, if_neg Bool.false_ne_true] at hlt
      exact ⟨hn, hf, he, Int.ofNat_lt.mp hlt⟩

section

variable {c : Context} {lead trail : List Char} {spot : Spot} {n : Numeral}

theorem Message.read_id {format : Option Format} (hc : c.Text lead trail)
    (hholds : c.Holds (spot.encodeId format)) (hd : (c.fill .null).depth ≤ maxNesting)
    (hn : n.IsIndex) : ∃ p : UInt64, p.toNat = Decimal.value n.whole ∧
      Message.read (n.within lead trail) =
        .ok (spot.put [Node.argumentElement (.index p) format]) := by
  have hp : (UInt64.ofNat (Decimal.value n.whole)).toNat = Decimal.value n.whole :=
    UInt64.toNat_ofNat_of_lt' hn.2.2.2
  obtain ⟨hi, hpos, hlt⟩ := n.isIndex_iff.mp hn
  have hmin : Int64.minValue.toInt < 0 := by decide
  refine ⟨_, hp, Message.read_within hc hholds hd hi ⟨by omega, hlt⟩ ?_⟩
  rw [← spot.encodeId_encode, ArgumentId.encode, hp, hn.toInt_eq]

theorem Message.not_read_id {format : Option Format} (hc : c.Text lead trail)
    (hholds : c.Holds (spot.encodeId format)) (hn : ¬n.IsIndex) :
    ∃ cause, Message.read (n.within lead trail) = .error cause := by
  refine (spot.slot_id format).not_read hc hholds fun hi _ id hid => hn ?_
  refine n.isIndex_iff.mpr ⟨hi, ?_⟩
  rw [ArgumentId.decode] at hid
  split at hid
  · assumption
  · cases hid

end

/-! ## Offsets -/

/-- An integer from -2^63 to 2^63 - 1. -/
def Json.Numeral.IsOffset (n : Numeral) : Prop :=
  n.IsInteger ∧ -9223372036854775808 ≤ n.toInt ∧ n.toInt ≤ 9223372036854775807

instance : DecidablePred Json.Numeral.IsOffset := fun n => inferInstanceAs (Decidable
  (n.IsInteger ∧ -9223372036854775808 ≤ n.toInt ∧ n.toInt ≤ 9223372036854775807))

section

variable {c : Context} {lead trail : List Char} {spot : Spot} {id : ArgumentId} {kind : BranchKind}
  {branches : List Branch} {n : Numeral}

theorem Message.read_offset (hc : c.Text lead trail)
    (hholds : c.Holds (spot.encodeOffset id kind branches))
    (hd : (c.fill .null).depth ≤ maxNesting) (hn : n.IsOffset) :
    ∃ k : Int64, k.toInt = n.toInt ∧ Message.read (n.within lead trail) =
      .ok (spot.put [.argument id (.branching kind (some k) branches)]) := by
  obtain ⟨hi, hl, hu⟩ := hn
  have hk : (Int64.ofInt n.toInt).toInt = n.toInt := Int64.toInt_ofInt_of_le hl (by omega)
  have hmin : Int64.minValue.toInt = -9223372036854775808 := by decide
  have hsize : (UInt64.size : Int) = 18446744073709551616 := rfl
  refine ⟨_, hk, Message.read_within hc hholds hd hi ⟨by omega, by omega⟩ ?_⟩
  rw [← spot.encodeOffset_encode, IcuMessage.encodeOffset, encodeOption, hk]

theorem Message.not_read_offset (hc : c.Text lead trail)
    (hholds : c.Holds (spot.encodeOffset id kind branches)) (hn : ¬n.IsOffset) :
    ∃ cause, Message.read (n.within lead trail) = .error cause := by
  refine (spot.slot_offset id kind branches).not_read hc hholds fun hi _ offset hoffset => hn ?_
  obtain ⟨k, hk, -⟩ := map_ok_iff.mp hoffset
  rw [Decoder.int64] at hk
  split at hk
  · rename_i hrange
    obtain ⟨hl, hu⟩ := hrange
    have hmin : Int64.minValue.toInt = -9223372036854775808 := by decide
    have hmax : Int64.maxValue.toInt = 9223372036854775807 := by decide
    exact ⟨hi, by omega, by omega⟩
  · cases hk

end

/-! ## Printing -/

theorem Message.printSource_of_read {source : String} {m : Message}
    (h : Message.read source = .ok m) (layout : Layout) :
    Message.printSource layout source = .ok (String.ofList (Element.printAll layout m).text) := by
  rw [Message.printSource, h]
  rfl

theorem Json.Numeral.IsIndex.text_eq {n : Numeral} (h : n.IsIndex) :
    Decimal.natural (Decimal.value n.whole) = n.text := by
  rw [← Numeral.integer_toInt h.isInteger, h.toInt_eq]
  rfl

/-- The clause of an offset that stands for the integer of the numeral. -/
theorem Syntax.offsetClause_of_toInt {n : Numeral} (h : n.IsInteger) {k : Int64}
    (hk : k.toInt = n.toInt) : Syntax.offsetClause (some k) =
      if n.text = ['0'] then [] else ", offset:".toList ++ n.text := by
  have hzero : k = 0 ↔ n.text = ['0'] := by
    rw [← Numeral.integer_toInt h, ← hk, ← Int64.toInt_inj]
    exact ⟨fun h => by rw [h]; rfl, fun h => Decimal.integer_injective (h.trans rfl)⟩
  rw [Syntax.offsetClause, hk, Numeral.integer_toInt h, if_congr hzero rfl rfl]

section

variable {c : Context} {lead trail : List Char}

theorem Message.print_id (hc : c.Text lead trail) (hd : (c.fill .null).depth ≤ maxNesting)
    (spot : Spot) (hholds : c.Holds (spot.encodeId none)) (layout : Layout) :
    ∃ before after : List Char, ∀ n : Numeral, n.IsIndex →
      Message.printSource layout (n.within lead trail) =
        .ok (String.ofList (before ++ '{' :: n.text ++ ['}'] ++ after)) := by
  obtain ⟨before, after, hput⟩ := spot.exists_text_put layout
  refine ⟨before, after, fun n hn => ?_⟩
  obtain ⟨p, hp, hread⟩ := Message.read_id hc hholds hd hn
  rw [Message.printSource_of_read hread, hput, ← hn.text_eq, ← hp]
  simp [Node.argumentElement, Element.printAll, Element.print, Printed.ofText, Syntax.placeholder,
    ArgumentId.text]

theorem Message.print_offset (hc : c.Text lead trail) (hd : (c.fill .null).depth ≤ maxNesting)
    (spot : Spot) (id : ArgumentId) (kind : BranchKind) (branches : List Branch)
    (hholds : c.Holds (spot.encodeOffset id kind branches)) (layout : Layout) :
    ∃ before after : List Char, ∀ n : Numeral, n.IsOffset →
      Message.printSource layout (n.within lead trail) =
        .ok (String.ofList (before ++ '{' :: id.text ++ ", ".toList ++
          (ArgumentType.branching kind).name.toList ++
          (if n.text = ['0'] then [] else ", offset:".toList ++ n.text) ++ ',' :: after)) := by
  obtain ⟨before, after, hput⟩ := spot.exists_text_put layout
  refine ⟨before, Syntax.branches (spot.layout layout) ((Branch.printAll branches).map
    Printed.text) ++ ['}'] ++ after, fun n hn => ?_⟩
  obtain ⟨k, hk, hread⟩ := Message.read_offset hc hholds hd hn
  rw [Message.printSource_of_read hread, hput, ← Syntax.offsetClause_of_toInt hn.1 hk]
  simp [Element.printAll, Element.print, Syntax.branching]

/-- **The numbers of a message are read in their exact range and printed digit for digit.** In the
place of an id, a numeral is taken if it is digits alone below 2^64, in the place of an offset if it
is an integer of 64 bits with sign and not `-0`; any other makes the source be refused. The
placeholder of an index is its digits in braces, and a zero offset is left out. -/
theorem Message.read_numeral (hc : c.Text lead trail) (hd : (c.fill .null).depth ≤ maxNesting) :
    (∀ (spot : Spot) (format : Option Format), c.Holds (spot.encodeId format) →
      ∀ n : Numeral,
        ((∃ m, Message.read (n.within lead trail) = .ok m) ↔ n.IsIndex) ∧
        (n.IsIndex → ∃ p : UInt64, p.toNat = Decimal.value n.whole ∧
          Message.read (n.within lead trail) =
            .ok (spot.put [Node.argumentElement (.index p) format]))) ∧
    (∀ spot : Spot, c.Holds (spot.encodeId none) → ∀ layout : Layout,
      ∃ before after : List Char, ∀ n : Numeral, n.IsIndex →
        Message.printSource layout (n.within lead trail) =
          .ok (String.ofList (before ++ '{' :: n.text ++ ['}'] ++ after))) ∧
    (∀ (spot : Spot) (id : ArgumentId) (kind : BranchKind) (branches : List Branch),
      c.Holds (spot.encodeOffset id kind branches) →
        (∀ n : Numeral,
          ((∃ m, Message.read (n.within lead trail) = .ok m) ↔ n.IsOffset) ∧
          (n.IsOffset → ∃ k : Int64, k.toInt = n.toInt ∧
            Message.read (n.within lead trail) =
              .ok (spot.put [.argument id (.branching kind (some k) branches)]))) ∧
        ∀ layout : Layout, ∃ before after : List Char, ∀ n : Numeral, n.IsOffset →
          Message.printSource layout (n.within lead trail) =
            .ok (String.ofList (before ++ '{' :: id.text ++ ", ".toList ++
              (ArgumentType.branching kind).name.toList ++
              (if n.text = ['0'] then [] else ", offset:".toList ++ n.text) ++ ',' :: after))) := by
  refine ⟨fun spot format hholds n => ⟨?_, read_id hc hholds hd⟩, print_id hc hd,
    fun spot id kind branches hholds => ⟨fun n => ⟨?_, read_offset hc hholds hd⟩,
      print_offset hc hd spot id kind branches hholds⟩⟩
  · refine read_iff (fun hn => ?_) (not_read_id hc hholds)
    obtain ⟨p, -, hread⟩ := read_id hc hholds hd hn
    exact ⟨_, hread⟩
  · refine read_iff (fun hn => ?_) (not_read_offset hc hholds)
    obtain ⟨k, -, hread⟩ := read_offset hc hholds hd hn
    exact ⟨_, hread⟩

end

/-- A numeral without fraction and exponent. -/
def Json.Numeral.ofDigits (negative : Bool) (digits : String)
    (h : IsDigits digits.toList := by decide +kernel)
    (hz : digits.toList.head? = some '0' → digits.toList = ['0'] := by decide +kernel) : Numeral :=
  ⟨negative, digits.toList, none, none, h, hz, nofun⟩

namespace Message

/-- Around the id of a placeholder, all nodes as objects. -/
def idContext : Context :=
  .member [] "elements" (.item [] (.member [("type", .string "argumentElement")] "id" .hole
    [("format", .null)]) []) []

def idLead : String :=
  "\x7b\"elements\":[\x7b\"type\":\"argumentElement\",\"id\":"

def idTrail : String :=
  ",\"format\":null\x7d]\x7d"

/-- Around the offset of a plural in an option of a select, all nodes as arrays. -/
def offsetContext : Context :=
  .item [] (.item [] (.item [.string "argumentElement", .string "a"] (.item
    [.string "selectFormat", .null] (.item [] (.item [.string "x"] (.item [] (.item []
      (.item [.string "argumentElement", .string "b"] (.item [.string "pluralFormat", .bool false]
        .hole [.array []]) []) []) []) []) []) []) []) []) []

def offsetLead : String :=
  "[[[\"argumentElement\",\"a\",[\"selectFormat\",null,[[\"x\",[[[\"argumentElement\",\"b\"," ++
    "[\"pluralFormat\",false,"

def offsetTrail : String :=
  ",[]]]]]]]]]]]"

theorem text_idContext : idContext.Text idLead.toList idTrail.toList := by
  have hname : ∀ key value, IsMember (StringLiteral.write key ++ [':'] ++ value) key value :=
    fun key value => by
      rw [List.append_assoc, List.singleton_append]
      exact isMember_memberText key value
  have htype := isMember_memberText "type" (Value.string "argumentElement").write
  have hformat := isMember_memberText "format" Value.null.write
  have hargument := Context.Text.member .nil (.cons htype (text_write trivial) .nil) (hname "id")
    .hole (.cons hformat (text_write trivial) .nil)
  have h := Context.Text.member .nil .nil (hname "elements") (.item .nil .nil hargument .nil) .nil
  refine Eq.mp (congrArg₂ _ ?_ ?_) h <;> decide +kernel

theorem text_offsetContext : offsetContext.Text offsetLead.toList offsetTrail.toList := by
  have hstring : ∀ s, (Value.string s).Text (Value.string s).write := fun s => text_write trivial
  have hnull : Value.null.Text Value.null.write := text_write trivial
  have hfalse : (Value.bool false).Text (Value.bool false).write := text_write trivial
  have hnone : (Value.array []).Text (Value.array []).write := text_write trivial
  have hplural := Context.Text.item .nil (.cons (hstring "pluralFormat") (.cons hfalse .nil)) .hole
    (.cons hnone .nil)
  have hinner := Context.Text.item .nil
    (.cons (hstring "argumentElement") (.cons (hstring "b") .nil)) hplural .nil
  have hbranch := Context.Text.item .nil (.cons (hstring "x") .nil)
    (.item .nil .nil (.item .nil .nil hinner .nil) .nil) .nil
  have hselect := Context.Text.item .nil (.cons (hstring "selectFormat") (.cons hnull .nil))
    (.item .nil .nil hbranch .nil) .nil
  have houter := Context.Text.item .nil
    (.cons (hstring "argumentElement") (.cons (hstring "a") .nil)) hselect .nil
  have h := Context.Text.item .nil .nil (.item .nil .nil houter .nil) .nil
  refine Eq.mp (congrArg₂ _ ?_ ?_) h <;> decide +kernel

theorem holds_idContext : idContext.Holds ((Spot.own [] []).encodeId none) := fun _ hx =>
  .node (.cons (.array (.cons (.node (.cons (.scalar rfl) (.cons (.scalar hx) (.cons (.scalar rfl)
    .nil))) .all_members) .nil)) .nil) .all_members

/-- In the option `x` of the select `a`. -/
def optionSpot : Spot :=
  .inside (.option ⟨[], .name "a", .select, none, [], "x", [], []⟩) [] []

theorem holds_offsetContext :
    offsetContext.Holds (optionSpot.encodeOffset (.name "b") .plural []) := by
  intro x hx
  have hargument : ∀ id v, Shape true Node.absent [(tagName, .string "argumentElement"),
      ("id", .string id), ("format", v)] (.array [.string "argumentElement", .string id, v]) :=
    fun id v => .all_items
  have hselect : ∀ v, Shape true Node.absent [(tagName, .string "selectFormat"), ("offset", .null),
      ("options", v)] (.array [.string "selectFormat", .null, v]) := fun v => .all_items
  have hbranch : ∀ v, Shape true Node.absent [("selector", .string "x"), ("value", v)]
      (.array [.string "x", v]) := fun v => .all_items
  have hmessage : ∀ v, Shape true Node.absent [("elements", v)] (.array [v]) := fun v => .all_items
  have hplural : Shape true Node.absent [(tagName, .string "pluralFormat"),
      ("ordinal", .bool false), ("offset", x), ("options", .array [])]
      (.array [.string "pluralFormat", .bool false, x, .array []]) := .all_items
  refine .node (.cons (.array (.cons (.node ?_ (hargument _ _)) .nil)) .nil) (hmessage _)
  refine .cons (.scalar rfl) (.cons (.scalar rfl) (.cons (.node ?_ (hselect _)) .nil))
  refine .cons (.scalar rfl) (.cons (.scalar rfl) (.cons (.array (.cons (.node ?_ (hbranch _))
    .nil)) .nil))
  refine .cons (.scalar rfl) (.cons (.node (.cons (.array (.cons (.node ?_ (hargument _ _)) .nil))
    .nil) (hmessage _)) .nil)
  refine .cons (.scalar rfl) (.cons (.scalar rfl) (.cons (.node ?_ hplural) .nil))
  exact .cons (.scalar rfl) (.cons (.scalar rfl) (.cons (.scalar hx) (.cons (.array .nil) .nil)))

theorem read_numeral_bounds :
    (∃ p : UInt64, p.toNat = 18446744073709551615 ∧
      read (idLead ++ "18446744073709551615" ++ idTrail) = .ok [.placeholder (.index p)]) ∧
    (∀ text ∈ ["18446744073709551616", "-0", "1.0", "1e2"],
      ¬∃ m, read (idLead ++ text ++ idTrail) = .ok m) ∧
    (∃ k : Int64, k.toInt = -9223372036854775808 ∧
      read (offsetLead ++ "-9223372036854775808" ++ offsetTrail) =
        .ok (optionSpot.put [.argument (.name "b") (.branching .plural (some k) [])])) ∧
    ∀ text ∈ ["9223372036854775808", "-9223372036854775809", "-0"],
      ¬∃ m, read (offsetLead ++ text ++ offsetTrail) = .ok m := by
  have hid := fun n => (read_numeral text_idContext (by decide)).1 _ _ holds_idContext n
  have hoffset := fun n =>
    ((read_numeral text_offsetContext (by decide)).2.2 _ _ _ _ holds_offsetContext).1 n
  have hnoid : ∀ (n : Numeral) (text : String), n.text = text.toList → ¬n.IsIndex →
      ¬∃ m, read (idLead ++ text ++ idTrail) = .ok m := by
    intro n text ht hn
    rw [← Numeral.within_eq_append ht, (hid n).1]
    exact hn
  have hnooffset : ∀ (n : Numeral) (text : String), n.text = text.toList → ¬n.IsOffset →
      ¬∃ m, read (offsetLead ++ text ++ offsetTrail) = .ok m := by
    intro n text ht hn
    rw [← Numeral.within_eq_append ht, (hoffset n).1]
    exact hn
  refine ⟨?_, ?_, ?_, ?_⟩
  · obtain ⟨p, hp, hread⟩ := (hid (.ofDigits false "18446744073709551615")).2 (by decide +kernel)
    have ht : (Numeral.ofDigits false "18446744073709551615").text =
        "18446744073709551615".toList := by decide +kernel
    rw [Numeral.within_eq_append ht] at hread
    exact ⟨p, hp.trans (by decide +kernel), hread⟩
  · simp only [List.forall_mem_cons]
    refine ⟨?_, ?_, ?_, ?_, nofun⟩
    · exact hnoid (.ofDigits false "18446744073709551616") _ (by decide +kernel)
        (by decide +kernel)
    · exact hnoid (.ofDigits true "0") _ (by decide +kernel) (by decide +kernel)
    · exact hnoid ⟨false, ['1'], some ['0'], none, by decide, by decide, by simp; decide⟩ _
        (by decide +kernel) (by decide +kernel)
    · exact hnoid ⟨false, ['1'], none, some ⟨'e', [], ['2'], by decide, by decide, by decide⟩,
        by decide, by decide, nofun⟩ _ (by decide +kernel) (by decide +kernel)
  · obtain ⟨k, hk, hread⟩ := (hoffset (.ofDigits true "9223372036854775808")).2 (by decide +kernel)
    have ht : (Numeral.ofDigits true "9223372036854775808").text =
        "-9223372036854775808".toList := by decide +kernel
    rw [Numeral.within_eq_append ht] at hread
    exact ⟨k, hk.trans (by decide +kernel), hread⟩
  · simp only [List.forall_mem_cons]
    refine ⟨?_, ?_, ?_, nofun⟩
    · exact hnooffset (.ofDigits false "9223372036854775808") _ (by decide +kernel)
        (by decide +kernel)
    · exact hnooffset (.ofDigits true "9223372036854775809") _ (by decide +kernel)
        (by decide +kernel)
    · exact hnooffset (.ofDigits true "0") _ (by decide +kernel) (by decide +kernel)

end Message

end IcuMessage
