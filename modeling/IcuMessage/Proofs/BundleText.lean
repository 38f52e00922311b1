/-
Every source that is read as a bundle is the text of an object whose values are
messages by themselves (`Bundle.exists_text_of_read`), whatever stands in them
that no message has, and an object of the same values, in whatever order, is
read as they are (`Bundle.read_eq_collect_of_messages`). It is not presumed that the values
could be read as JSON: what a message passes over may be nested without limit.
-/
import IcuMessage.Proofs.BundleReading
import IcuMessage.Proofs.Json.RecordPieces

namespace IcuMessage

open Json

/-! ## Members of an object -/

namespace Json

variable {α : Type} {read read' : List Char → Except Error (α × List Char)}

theorem Carries.progress (h : Carries Eq read read) : Progress (Reads read) := by
  intro text a rest hr
  obtain ⟨piece, _, rfl, -, hne, -⟩ := h hr
  have hpos := List.length_pos_iff.mpr hne
  rw [List.length_append]
  omega

theorem Takes.holds {piece blanks : List Char} {a : α} (h : Takes read piece a)
    (hb : Blank blanks) : Holds read (piece ++ blanks) a := by
  intro rest hr
  refine ⟨blanks ++ rest, ?_, skipBlanks_append_of_nil hb.skip rest⟩
  rw [List.append_assoc]
  exact h.2 _ (hb.endsNumber hr)

/-- What a text holds is read from it by itself, also by a reader that takes its piece. -/
theorem Holds.read_all {text : List Char} {a : α} (h : Holds read text a)
    (hR : Carries Eq read read') : ∃ rest, read' text = .ok (a, rest) ∧ skipBlanks rest = [] := by
  obtain ⟨rest, hread, hrest⟩ := h [] .nil
  rw [List.append_nil] at hread
  obtain ⟨piece, _, rfl, rfl, -, hpiece⟩ := hR hread
  have hblank : Blank rest := blank_of_skipBlanks hrest
  have hends : EndsNumber rest := by simpa using hblank.endsNumber .nil
  exact ⟨rest, hpiece rest hends, hrest⟩

theorem MemberAt.exists_key {isFirst : Bool} {text colon : List Char} {key : String}
    (h : MemberAt isFirst text (.member key colon)) :
    ∃ lead before literal, text = lead ++ (before ++ '"' :: literal ++ colon) ∧
      (if isFirst then lead = [] else ∃ blanks, Blank blanks ∧ lead = blanks ++ [',']) ∧
      Blank before ∧ StringLiteral.read literal = .ok (key, []) := by
  cases h with
  | first h hk =>
    obtain ⟨before, hb, rfl⟩ := exists_blanks h
    obtain ⟨literal, rfl, hliteral⟩ := StringLiteral.read_piece hk
    exact ⟨[], before, literal, by simp, rfl, hb, by simpa using hliteral []⟩
  | next h hm hk =>
    obtain ⟨blanks, hblanks, rfl⟩ := exists_blanks h
    obtain ⟨before, hb, rfl⟩ := exists_blanks hm
    obtain ⟨literal, rfl, hliteral⟩ := StringLiteral.read_piece hk
    exact ⟨blanks ++ [','], before, literal, by simp, ⟨blanks, hblanks, rfl⟩, hb,
      by simpa using hliteral []⟩

theorem endsNumber_of_members {R : List Char → α → List Char → Prop} {text rest : List Char}
    {ms : List (String × α)} (h : Members R false text ms rest) : EndsNumber text := by
  cases h with
  | close h => exact h.endsNumber
  | member h => exact h.endsNumber

/-- The members that have been read stand in the text one after another, with commas between. -/
theorem texts_of_members (hR : Carries Eq read read) {isFirst : Bool} {text rest : List Char}
    {ms : List (String × α)} (h : Members (Reads read) isFirst text ms rest) :
    ∃ blanks texts, text = blanks ++
        ((if isFirst then commaSeparated texts else commaBefore texts) ++ '}' :: rest) ∧
      Blank blanks ∧ List.Forall₂ (HoldsMember read) texts ms := by
  induction h with
  | close h =>
    cases h with
    | close h =>
      obtain ⟨blanks, hb, rfl⟩ := exists_blanks h
      refine ⟨blanks, [], ?_, hb, .nil⟩
      cases ‹Bool› <;> rfl
  | @member isFirst text colon inner mid rest key a ms h hc ha _ ih =>
    obtain ⟨lead, before, literal, rfl, hlead, hb, hk⟩ := h.exists_key
    obtain ⟨after, hafter, rfl⟩ := exists_blanks hc
    obtain ⟨piece, _, rfl, rfl, hpiece⟩ := hR ha
    obtain ⟨blanks, texts, rfl, hblanks, htexts⟩ := ih
    -- The blanks before the next comma, or the brace, go to the value.
    have hm : HoldsMember read
        (before ++ '"' :: literal ++ after ++ ':' :: (piece ++ blanks)) (key, a) :=
      ⟨_, ⟨before, literal, after, rfl, hb, hafter, hk⟩, Takes.holds hpiece hblanks⟩
    cases isFirst with
    | true =>
      obtain rfl : lead = [] := hlead
      exact ⟨[], _ :: texts, by simp [commaSeparated_cons], .nil, .cons hm htexts⟩
    | false =>
      obtain ⟨lead, hl, rfl⟩ : ∃ blanks, Blank blanks ∧ lead = blanks ++ [','] := hlead
      exact ⟨lead, _ :: texts, by simp [commaBefore], hl, .cons hm htexts⟩

/-- Where the piece of one reader is gone over by another that has not more to say, it is the piece
of that one too. -/
theorem Takes.holds_of_read (hc : Carries Eq read read) (hb : Carries Eq read read')
    {piece blanks more mid : List Char} {a b : α} (h : Takes read' piece a) (hblank : Blank blanks)
    (hmore : EndsNumber more) (hr : read (piece ++ blanks ++ more) = .ok (b, mid))
    (hmid : EndsNumber mid) : Holds read (piece ++ blanks) a ∧ mid = blanks ++ more := by
  obtain ⟨p, _, hp, rfl, -, hbig⟩ := hb hr
  have hread := h.2 (blanks ++ more) (hblank.endsNumber hmore)
  rw [← List.append_assoc, hp, hbig mid hmid] at hread
  obtain ⟨rfl, rfl⟩ := Prod.mk.inj (Except.ok.inj hread)
  obtain ⟨p, _, hp, rfl, hsmall⟩ := hc hr
  rw [List.append_assoc] at hp
  obtain rfl : piece = p := List.append_cancel_right hp
  exact ⟨Takes.holds hsmall hblank, rfl⟩

/-- One member that both readers go over. -/
theorem Members.holds_of_takes (hc : Carries Eq read read) (hb : Carries Eq read read')
    {isFirst : Bool} {text colon rest piece blanks more : List Char} {key : String} {a : α}
    {ms : List (String × α)} (h : Members (Reads read) isFirst text ms rest)
    (hat : MemberAt isFirst text (.member key colon))
    (hcolon : skipBlanks colon = ':' :: (piece ++ blanks ++ more)) (ht : Takes read' piece a)
    (hblank : Blank blanks) (hmore : EndsNumber more) :
    Holds read (piece ++ blanks) a ∧ ∃ ms, Members (Reads read) false (blanks ++ more) ms rest := by
  cases h with
  | close h =>
    have heq := (nextMember_ok_iff.mpr h).symm.trans (nextMember_ok_iff.mpr hat)
    simp at heq
  | member h hcolon' ha hms =>
    have heq := (nextMember_ok_iff.mpr h).symm.trans (nextMember_ok_iff.mpr hat)
    obtain ⟨rfl, rfl⟩ := NextMember.member.inj (Except.ok.inj heq)
    obtain rfl := (List.cons.inj (hcolon'.symm.trans hcolon)).2
    have hmid := endsNumber_of_members hms
    obtain ⟨hholds, rfl⟩ := ht.holds_of_read hc hb hblank hmore ha hmid
    exact ⟨hholds, _, hms⟩

end Json

/-! ## Messages in less room -/

theorem Element.carries_reader {room room' : Nat} (h : room ≤ room') :
    Carries Eq (Element.reader (room + 1)) (Element.reader (room' + 1)) := by
  intro text e rest hr
  obtain ⟨v, hv, he⟩ := readValue_of_tagged hr
  obtain ⟨piece, _, rfl, rfl, hne, hpiece⟩ := carries_readValue (Nat.succ_le_succ h) hv
  refine ⟨piece, e, rfl, rfl, hne, fun more hm => ?_⟩
  have hdepth : v.depth < room + 2 := Nat.lt_succ_of_le (depth_le_of_readValue hv)
  have hagree := Element.agreeBelow_streamed (Nat.le_refl _) (Nat.add_le_add_right h 2) v hdepth
  have hstreamed : Element.streamed room' v = .ok e := hagree ▸ he
  rw [Element.reader_follows room' (hpiece more hm), hstreamed, map_ok]

theorem Message.record_carries {room room' : Nat} (h : room ≤ room') :
    (Node.message (.list Element.reader)).Carries Eq Eq (room + 2) (room' + 2)
      (Node.message (.list Element.reader)) := by
  have hlist := (Element.carries_reader h).list
  rw [List.forall₂_eq_eq_eq] at hlist
  refine ⟨.cons ⟨rfl, hlist.stores ?_⟩ .nil, rfl, ?_⟩
  · rintro es _ s _ rfl rfl
    rfl
  · rintro missing missing' s _ m rfl hm
    have hsome : s = some m := required_ok hm
    exact ⟨m, by rw [hsome]; rfl, rfl⟩

theorem Message.carries_reader {room room' : Nat} (h : room ≤ room') :
    Carries Eq (Message.reader (room + 3)) (Message.reader (room' + 3)) :=
  (Message.record_carries h).record

theorem Message.takes_of_read {source : String} {m : Message} (h : Message.read source = .ok m) :
    ∃ piece blanks, source.toList = piece ++ blanks ∧ Blank blanks ∧
      Takes (Message.reader maxNesting) piece m := by
  obtain ⟨blanks, hread, hblank⟩ := readAll_ok_iff.mp h
  obtain ⟨piece, _, htext, rfl, hpiece⟩ := Message.carries_reader (Nat.le_refl 124) hread
  exact ⟨piece, blanks, htext, blank_of_skipBlanks hblank, hpiece⟩

theorem Message.read_of_holds {source : String} {m : Message}
    (h : Holds (Message.reader 126) source.toList m) : Message.read source = .ok m := by
  have hroom : Carries Eq (Message.reader 126) (Message.reader maxNesting) :=
    Message.carries_reader (Nat.le_succ 123)
  exact readAll_ok_iff.mpr (h.read_all hroom)

namespace Bundle

/-- Each value is the text of a message, with room for it in another container. -/
def MessagesOf (sources : List (String × String)) (ms : List (String × Message)) : Prop :=
  List.Forall₂ (fun s m => s.1 = m.1 ∧ Holds (Message.reader 126) s.2.toList m.2) sources ms

theorem MessagesOf.read {sources : List (String × String)} {ms : List (String × Message)}
    (h : MessagesOf sources ms) :
    List.Forall₂ (fun s m => s.1 = m.1 ∧ Message.read s.2 = .ok m.2) sources ms :=
  h.imp fun _ _ hsm => ⟨hsm.1, Message.read_of_holds hsm.2⟩

theorem MessagesOf.keys_eq {sources : List (String × String)} {ms : List (String × Message)}
    (h : MessagesOf sources ms) : Entries.keys sources = Entries.keys ms := by
  induction h with
  | nil => rfl
  | cons hsm _ ih => exact congrArg₂ List.cons hsm.1 ih

theorem carries_reader : Carries Eq (Message.reader 126) (Message.reader 126) :=
  Message.carries_reader (Nat.le_refl 123)

/-- What reading a member does to the bundle. -/
theorem member_eq {bundle : Bundle Message} {key : String} {colon inner rest : List Char}
    {m : Message} (hc : skipBlanks colon = ':' :: inner)
    (hm : Reads (Message.reader 126) inner m rest) :
    member Message.reader 126 bundle key colon =
      ((Except.ok m).map (bundle.put key)).map (·, rest) := by
  have hm : Message.reader 126 inner = .ok (m, rest) := hm
  rw [member, expectColon_ok_iff.mpr hc, ok_bind, hm]
  rfl

theorem skipBlanks_object {text before blanks after : List Char} {texts : List (List Char)}
    (h : text = before ++ ('{' :: blanks ++ commaSeparated texts ++ ['}']) ++ after)
    (hbefore : Blank before) :
    skipBlanks text = '{' :: (blanks ++ (commaSeparated texts ++ '}' :: after)) := by
  have hcons := skipBlanks_cons_of_not (c := '{') (by decide)
    (blanks ++ (commaSeparated texts ++ '}' :: after))
  rw [h, List.append_assoc, skipBlanks_append_of_nil hbefore.skip]
  simpa using hcons

/-- A text of an object of messages is read as they are. -/
theorem read_eq_collect_of_messages {sources : List (String × String)}
    {ms : List (String × Message)} {source : String} (ht : Text sources source.toList)
    (h : MessagesOf sources ms) :
    Bundle.read source = collect .ok ms := by
  obtain ⟨before, blanks, texts, after, htext, hbefore, hblanks, hafter, hmembers⟩ := ht
  have hholds : List.Forall₂ (HoldsMember (Message.reader 126)) texts ms := by
    clear htext
    induction hmembers generalizing ms with
    | nil =>
      cases h
      exact .nil
    | cons hm _ ih =>
      cases h with
      | cons hsm hrest => exact .cons ⟨_, hsm.1 ▸ hm, hsm.2⟩ (ih hrest)
  have hbrace := skipBlanks_object htext hbefore
  have hread : reader Message.reader maxNesting source.toList =
      (collect .ok ms).map (·, after) := by
    rw [reader, hbrace]
    exact (allMembers_of_holds hblanks hholds after).foldMembers_eq carries_reader.progress
      (fun bundle m => (Except.ok m.2).map (bundle.put m.1))
      (fun _ _ _ _ _ _ hc ha => member_eq hc ha) (Nat.le_refl _) empty
  rw [Bundle.read, Reader.readAll, hread]
  cases collect Except.ok ms with
  | error e => rfl
  | ok bundle => exact if_pos hafter.skip

/-- Values out of the texts of members. -/
theorem exists_sources {texts : List (List Char)} {ms : List (String × Message)}
    (h : List.Forall₂ (HoldsMember (Message.reader 126)) texts ms) :
    ∃ sources, List.Forall₂ (fun text (s : String × String) => IsMember text s.1 s.2.toList)
      texts sources ∧ MessagesOf sources ms := by
  induction h with
  | nil => exact ⟨[], .nil, .nil⟩
  | @cons text m texts ms hm _ ih =>
    obtain ⟨value, hmember, hvalue⟩ := hm
    obtain ⟨sources, hsources, hholds⟩ := ih
    have hvalue : (String.ofList value).toList = value := String.toList_ofList
    refine ⟨(m.1, String.ofList value) :: sources, .cons ?_ hsources, .cons ⟨rfl, ?_⟩ hholds⟩
    · rwa [hvalue]
    · rwa [hvalue]

theorem members_of_read {source : String} {bundle : Bundle Message}
    (h : Bundle.read source = .ok bundle) : ∃ inner after ms,
      skipBlanks source.toList = '{' :: inner ∧ Blank after ∧
        Members (Reads (Message.reader 126)) true inner ms after := by
  obtain ⟨after, hread, hafter⟩ := readAll_ok_iff.mp h
  unfold reader at hread
  split at hread
  · rename_i inner hb
    obtain ⟨ms, hms⟩ := members_of_steps (fun _ _ _ _ _ hm => by
      obtain ⟨rest, hc, hm⟩ := bind_ok_iff.mp hm
      obtain ⟨⟨m, mid⟩, ha, hm⟩ := bind_ok_iff.mp hm
      obtain ⟨-, rfl⟩ := Prod.mk.inj (Except.ok.inj hm)
      exact ⟨rest, m, expectColon_ok_iff.mp hc, ha⟩) hread
    exact ⟨inner, after, ms, hb, blank_of_skipBlanks hafter, hms⟩
  · exact absurd hread (wrongType_ne_ok _ _ _)

/-- Whatever is read as a bundle is the text of an object of messages. -/
theorem exists_text_of_read {source : String} {bundle : Bundle Message}
    (h : Bundle.read source = .ok bundle) :
    ∃ sources ms, Text sources source.toList ∧ MessagesOf sources ms := by
  obtain ⟨inner, after, ms, hb, hafter, hms⟩ := members_of_read h
  obtain ⟨blanks, texts, rfl, hblanks, htexts⟩ := texts_of_members carries_reader hms
  obtain ⟨before, hbefore, htext⟩ := exists_blanks hb
  obtain ⟨sources, hsources, hmessages⟩ := exists_sources htexts
  exact ⟨sources, ms, ⟨before, blanks, texts, after, by simp [htext], hbefore, hblanks, hafter,
    hsources⟩, hmessages⟩

/-! ## One reading only -/

/-- A member whose value is a message by itself, in an object that is read as a bundle. -/
theorem holds_of_member {isFirst : Bool} {text mid more after : List Char} {s : String × String}
    {m : Message} (ht : IsMember text s.1 s.2.toList) (hm : Message.read s.2 = .ok m)
    (hat : ∀ inner colon, skipBlanks (text ++ more) = '"' :: inner →
      StringLiteral.read inner = .ok (s.1, colon) → MemberAt isFirst mid (.member s.1 colon))
    (hmore : EndsNumber more) {read : List (String × Message)}
    (hread : Members (Reads (Message.reader 126)) isFirst mid read after) :
    Holds (Message.reader 126) s.2.toList m ∧ ∃ next read, skipBlanks next = skipBlanks more ∧
      Members (Reads (Message.reader 126)) false next read after := by
  obtain ⟨inner, colon, hq, hk, hc⟩ := ht.read_key more
  obtain ⟨piece, blanks, htext, hblank, hpiece⟩ := Message.takes_of_read hm
  rw [htext] at hc ⊢
  obtain ⟨hholds, read, hmembers⟩ := hread.holds_of_takes carries_reader
    (Message.carries_reader (Nat.le_succ 123)) (hat inner colon hq hk) hc hpiece hblank hmore
  exact ⟨hholds, blanks ++ more, read, skipBlanks_append_of_nil hblank.skip more, hmembers⟩

/-- Where a bundle is read of an object of messages, there is room for all of them in it. -/
theorem messagesOf_of_members {texts : List (List Char)} {sources : List (String × String)}
    (htexts : List.Forall₂ (fun text s => IsMember text s.1 s.2.toList) texts sources)
    {ms : List (String × Message)}
    (h : List.Forall₂ (fun s m => s.1 = m.1 ∧ Message.read s.2 = .ok m.2) sources ms)
    {mid rest after : List Char} {read : List (String × Message)}
    (hmid : skipBlanks mid = commaBefore texts ++ '}' :: rest)
    (hread : Members (Reads (Message.reader 126)) false mid read after) :
    MessagesOf sources ms := by
  induction htexts generalizing ms mid read with
  | nil =>
    cases h
    exact .nil
  | @cons text s texts sources ht _ ih =>
    cases h with
    | @cons _ m _ ms hsm hrest =>
      have hcomma : skipBlanks mid = ',' :: (text ++ (commaBefore texts ++ '}' :: rest)) := by
        simpa [commaBefore] using hmid
      obtain ⟨hholds, next, _, hnext, hmembers⟩ := holds_of_member ht hsm.2
        (fun _ _ hq hk => .next hcomma hq hk) (endsNumber_commaBefore texts (.inr rfl) rest) hread
      exact .cons ⟨hsm.1, hholds⟩
        (ih hrest (hnext.trans (skipBlanks_commaBefore texts (.inr rfl) rest)) hmembers)

theorem messagesOf_of_read {sources : List (String × String)} {ms : List (String × Message)}
    {source : String} {bundle : Bundle Message} (ht : Text sources source.toList)
    (hs : List.Forall₂ (fun s m => s.1 = m.1 ∧ Message.read s.2 = .ok m.2) sources ms)
    (h : Bundle.read source = .ok bundle) : MessagesOf sources ms := by
  obtain ⟨before, blanks, texts, after, htext, hbefore, hblanks, -, htexts⟩ := ht
  obtain ⟨inner, _, read, hb, -, hread⟩ := members_of_read h
  obtain rfl := (List.cons.inj (hb.symm.trans (skipBlanks_object htext hbefore))).2
  cases htexts with
  | nil =>
    cases hs
    exact .nil
  | @cons text s texts sources ht htexts =>
    cases hs with
    | @cons _ m _ ms hsm hrest =>
      rw [commaSeparated_cons, List.append_assoc] at hread
      have hskip := skipBlanks_append_of_nil hblanks.skip
        (text ++ (commaBefore texts ++ '}' :: after))
      obtain ⟨hholds, next, _, hnext, hmembers⟩ := holds_of_member ht hsm.2
        (fun _ _ hq hk => .first (hskip.trans hq) hk)
        (endsNumber_commaBefore texts (.inr rfl) after) hread
      exact .cons ⟨hsm.1, hholds⟩ (messagesOf_of_members htexts hrest
        (hnext.trans (skipBlanks_commaBefore texts (.inr rfl) after)) hmembers)

end Bundle

end IcuMessage
