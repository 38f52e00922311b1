/-
What is read is a text: a value that has been read from the front of a text has
been read from a text of it (`text_of_readValue`). With `Value.Text.spells` the
texts of a value are just those it is read from (`Value.text_iff_readValue`).
-/
import IcuMessage.Proofs.Json.Pieces

namespace IcuMessage.Json

/-! ## Lists and objects -/

/-- The items of a list are there as texts, from a place in the list to its end. -/
theorem itemTexts_of_items {read : List Char → Except Error (Value × List Char)}
    (hread : ∀ text v rest, read text = .ok (v, rest) →
      ∃ piece, text = piece ++ rest ∧ v.Text piece)
    {isFirst : Bool} {text rest : List Char} {items : List Value}
    (h : Items (Reads read) isFirst text items rest) :
    ∃ blanks texts, Blank blanks ∧ Value.ItemTexts items texts ∧
      text = blanks ++ ((if isFirst then commaSeparated texts else commaBefore texts) ++
        ']' :: rest) := by
  induction h with
  | @close isFirst _ _ h =>
    cases h with
    | close h =>
      obtain ⟨blanks, hb, rfl⟩ := exists_blanks h
      exact ⟨blanks, [], hb, .nil, by cases isFirst <;> rfl⟩
  | item h ha _ ih =>
    obtain ⟨after, texts, hafter, htexts, rfl⟩ := ih
    obtain ⟨piece, hpiece, hv⟩ := hread _ _ _ ha
    cases h with
    | first h _ =>
      obtain ⟨blanks, hb, rfl⟩ := exists_blanks h
      refine ⟨blanks, _, hb, .cons (.between .nil hafter hv) htexts, ?_⟩
      rw [hpiece, commaSeparated_cons]
      simp
    | next h hi _ =>
      obtain ⟨blanks, hb, rfl⟩ := exists_blanks h
      obtain ⟨before, hbefore, rfl⟩ := exists_blanks hi
      refine ⟨blanks, _, hb, .cons (.between hbefore hafter hv) htexts, ?_⟩
      rw [hpiece]
      simp [commaBefore]

theorem memberTexts_of_members {read : List Char → Except Error (Value × List Char)}
    (hread : ∀ text v rest, read text = .ok (v, rest) →
      ∃ piece, text = piece ++ rest ∧ v.Text piece)
    {isFirst : Bool} {text rest : List Char} {ms : List (String × Value)}
    (h : Members (Reads read) isFirst text ms rest) :
    ∃ blanks texts, Blank blanks ∧ Value.MemberTexts ms texts ∧
      text = blanks ++ ((if isFirst then commaSeparated texts else commaBefore texts) ++
        '}' :: rest) := by
  induction h with
  | @close isFirst _ _ h =>
    cases h with
    | close h =>
      obtain ⟨blanks, hb, rfl⟩ := exists_blanks h
      exact ⟨blanks, [], hb, .nil, by cases isFirst <;> rfl⟩
  | @member _ _ _ _ _ _ key _ _ h hc ha _ ih =>
    obtain ⟨after, texts, hafter, htexts, rfl⟩ := ih
    obtain ⟨piece, rfl, hv⟩ := hread _ _ _ ha
    obtain ⟨between, hbetween, rfl⟩ := exists_blanks hc
    have hmember : ∀ {before literal}, Blank before → StringLiteral.read literal = .ok (key, []) →
        IsMember (before ++ '"' :: literal ++ between ++ ':' :: ([] ++ piece ++ after)) key
          ([] ++ piece ++ after) := fun hb hk => ⟨_, _, _, rfl, hb, hbetween, hk⟩
    cases h with
    | first h hk =>
      obtain ⟨blanks, hb, rfl⟩ := exists_blanks h
      obtain ⟨literal, rfl, hliteral⟩ := StringLiteral.read_piece hk
      have hk : StringLiteral.read literal = .ok (key, []) := by simpa using hliteral []
      refine ⟨blanks, _, hb, .cons (hmember .nil hk) (.between .nil hafter hv) htexts, ?_⟩
      rw [commaSeparated_cons]
      simp
    | next h hi hk =>
      obtain ⟨blanks, hb, rfl⟩ := exists_blanks h
      obtain ⟨before, hbefore, rfl⟩ := exists_blanks hi
      obtain ⟨literal, rfl, hliteral⟩ := StringLiteral.read_piece hk
      have hk : StringLiteral.read literal = .ok (key, []) := by simpa using hliteral []
      refine ⟨blanks, _, hb, .cons (hmember hbefore hk) (.between .nil hafter hv) htexts, ?_⟩
      simp [commaBefore]

/-! ## Values -/

theorem Value.Text.after {v : Value} {text blanks : List Char} (h : v.Text text)
    (hb : Blank blanks) : v.Text (blanks ++ text) := by
  simpa using h.between hb .nil

theorem text_of_scalarAt {text inner rest : List Char} {c : Char} {v : Value}
    (hb : skipBlanks text = c :: inner) (hs : ScalarAt (c :: inner) v rest) :
    ∃ piece, text = piece ++ rest ∧ v.Text piece := by
  obtain ⟨blanks, hblanks, rfl⟩ := exists_blanks hb
  obtain ⟨piece, heq, -, hpiece⟩ := hs.piece
  have hv : ScalarAt piece v [] := by simpa using hpiece [] .nil
  exact ⟨blanks ++ piece, by rw [heq, List.append_assoc], .after (.scalar hv) hblanks⟩

/-- Where a value has been read, a text of it stands. -/
theorem text_of_readValue {room : Nat} {text rest : List Char} {v : Value}
    (h : readValue room text = .ok (v, rest)) : ∃ piece, text = piece ++ rest ∧ v.Text piece := by
  induction room generalizing text v rest with
  | zero =>
    cases valueAt_of_readValue h with
    | scalar hb hs => exact text_of_scalarAt hb hs
  | succ room ih =>
    cases valueAt_of_readValue h with
    | array hb hi =>
      obtain ⟨before, hbefore, rfl⟩ := exists_blanks hb
      obtain ⟨blanks, texts, hblanks, htexts, rfl⟩ := itemTexts_of_items (fun _ _ _ => ih) hi
      exact ⟨_, by simp, (Value.Text.array hblanks htexts).after hbefore⟩
    | object hb hm =>
      obtain ⟨before, hbefore, rfl⟩ := exists_blanks hb
      obtain ⟨blanks, texts, hblanks, htexts, rfl⟩ := memberTexts_of_members (fun _ _ _ => ih) hm
      exact ⟨_, by simp, (Value.Text.object hblanks htexts).after hbefore⟩
    | scalar hb hs => exact text_of_scalarAt hb hs

/-- The texts of a value are those from which it is read, with nothing but blanks after it. -/
theorem Value.text_iff_readValue {v : Value} {text : List Char} :
    v.Text text ↔ ∃ room rest, readValue room text = .ok (v, rest) ∧ skipBlanks rest = [] := by
  constructor
  · intro h
    obtain ⟨mid, hv, hmid⟩ := h.spells (Nat.le_refl _) [] .nil
    rw [List.append_nil] at hv
    exact ⟨v.depth, mid, hv, hmid⟩
  · rintro ⟨room, rest, hv, hrest⟩
    obtain ⟨piece, rfl, hpiece⟩ := text_of_readValue hv
    simpa using hpiece.between .nil (blank_of_skipBlanks hrest)

end IcuMessage.Json
