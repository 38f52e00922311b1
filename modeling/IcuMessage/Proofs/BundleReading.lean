/-
A bundle is read as its messages are by themselves, one after another
(`Bundle.read_eq_collect`), although there is less room for their containers
within it. So it is refused for the first message that is, and else holds under
every key, in the order of their first occurrences, the last message of that
key (`Bundle.Collected`). What is put out has an entry for each of them
(`Bundle.value_read_write`).
-/
import Mathlib.Data.List.Induction
import IcuMessage.Proofs.BundleOutput

namespace IcuMessage

open Json

/-! ## Room -/

theorem Element.agreeBelow_streamed {n a b : Nat} (ha : n ≤ a + 2) (hb : n ≤ b + 2) :
    Decoder.AgreeBelow n (Element.streamed a) (Element.streamed b) := by
  intro v hv
  by_cases hn : ∀ tag ∈ v.tag?, tag.isNumber = false
  · rw [Element.streamed_eq_decode (by omega) (Nat.lt_succ_self v.depth) hn,
      Element.streamed_eq_decode (by omega) (Nat.lt_succ_self v.depth) hn]
  · -- A number for a tag is refused, and nothing before it needs the room.
    simp only [not_forall, Bool.not_eq_false] at hn
    obtain ⟨tag, ht, hn⟩ := hn
    rw [Element.streamed, Element.streamed, Decoder.streamedTagged_of_number _ (by omega) ht hn,
      Decoder.streamedTagged_of_number _ (by omega) ht hn]

theorem Message.agreeBelow_streamed {n a b : Nat} (ha : n ≤ a + 2) (hb : n ≤ b + 2) :
    Decoder.AgreeBelow (n + 2) (Message.streamed a) (Message.streamed b) :=
  .streamedRecord ⟨rfl, rfl, rfl,
    .cons ⟨rfl, (Element.agreeBelow_streamed ha hb).list.map _⟩ .nil⟩

/-! ## Entries -/

theorem Entries.mem_put {α : Type} {key k : String} {a b : α} {entries : List (String × α)}
    (h : (keys entries).Nodup) (hm : (k, b) ∈ put key a entries) :
    k = key ∧ b = a ∨ k ≠ key ∧ (k, b) ∈ entries := by
  induction entries with
  | nil =>
    obtain ⟨rfl, rfl⟩ := Prod.mk.inj (List.mem_singleton.mp hm)
    exact .inl ⟨rfl, rfl⟩
  | cons entry rest ih =>
    obtain ⟨first, c⟩ := entry
    obtain ⟨hfirst, hrest⟩ := List.nodup_cons.mp h
    rw [put] at hm
    split at hm
    · rename_i hk
      subst hk
      rcases List.mem_cons.mp hm with heq | hm'
      · exact .inl (Prod.mk.inj heq)
      · refine .inr ⟨?_, List.mem_cons_of_mem _ hm'⟩
        rintro rfl
        exact hfirst (List.mem_map.mpr ⟨_, hm', rfl⟩)
    · rename_i hk
      rcases List.mem_cons.mp hm with heq | hm
      · obtain ⟨rfl, rfl⟩ := Prod.mk.inj heq
        exact .inr ⟨hk, List.mem_cons_self⟩
      · exact (ih hrest hm).imp_right (And.imp_right (List.mem_cons_of_mem _))

namespace Bundle

variable {α β γ : Type}

/-! ## Members one after another -/

/-- Puts what is read of each member under its key, or fails as the first does that fails. -/
def collect (read : β → Except Error α) (ms : List (String × β)) : Except Error (Bundle α) :=
  ms.foldlM (fun bundle m => (read m.2).map (bundle.put m.1)) empty

/-- The keys are there in the order of their first occurrences, each with what is read of its last
occurrence. -/
structure Collected (read : β → Except Error α) (ms : List (String × β)) (bundle : Bundle α) :
    Prop where
  keys : Entries.keys bundle.entries = (ms.map (·.1)).eraseDups
  last : ∀ key a, (key, a) ∈ bundle.entries → ∃ b, ms.reverse.lookup key = some b ∧ read b = .ok a

theorem Collected.empty (read : β → Except Error α) : Collected read [] empty :=
  ⟨rfl, nofun⟩

theorem Collected.put {read : β → Except Error α} {ms : List (String × β)} {bundle : Bundle α}
    (h : Collected read ms bundle) {key : String} {b : β} {a : α} (hb : read b = .ok a) :
    Collected read (ms ++ [(key, b)]) (bundle.put key a) where
  keys := by
    show Entries.keys (Entries.put key a bundle.entries) = _
    rw [Entries.keys_put, h.keys, List.map_append, List.eraseDups_append]
    by_cases hk : key ∈ ms.map (·.1)
    · rw [if_pos (List.mem_eraseDups.mpr hk)]
      simp [List.removeAll, hk]
    · rw [if_neg (mt List.mem_eraseDups.mp hk)]
      simp [List.removeAll, hk, List.eraseDups_cons]
  last := by
    intro k c hm
    rw [List.reverse_append, List.reverse_singleton, List.singleton_append]
    rcases Entries.mem_put bundle.distinct hm with ⟨rfl, rfl⟩ | ⟨hne, hm⟩
    · exact ⟨b, List.lookup_cons_self, hb⟩
    · rw [List.lookup_cons, beq_false_of_ne hne]
      exact h.last k c hm

theorem collected_of_collect {read : β → Except Error α} {ms : List (String × β)}
    {bundle : Bundle α} (h : collect read ms = .ok bundle) :
    Collected read ms bundle ∧ ∀ m ∈ ms, ∃ a, read m.2 = .ok a := by
  -- From the end, since it is the last member that is put last.
  induction ms using List.reverseRecOn generalizing bundle with
  | nil =>
    obtain rfl := Except.ok.inj h
    exact ⟨.empty read, nofun⟩
  | append_singleton ms m ih =>
    rw [collect, List.foldlM_append] at h
    obtain ⟨before, hbefore, h⟩ := bind_ok_iff.mp h
    obtain ⟨a, ha, rfl⟩ : ∃ a, read m.2 = .ok a ∧ before.put m.1 a = bundle := by
      simpa [map_ok_iff] using h
    obtain ⟨hcollected, hms⟩ := ih hbefore
    refine ⟨hcollected.put ha, fun n hn => ?_⟩
    rcases List.mem_append.mp hn with hn | hn
    · exact hms n hn
    · obtain rfl := List.mem_singleton.mp hn
      exact ⟨a, ha⟩

theorem first_of_collect {read : β → Except Error α} {ms : List (String × β)} {cause : Error}
    (h : collect read ms = .error cause) :
    ∃ before key b after, ms = before ++ (key, b) :: after ∧
      (∀ m ∈ before, ∃ a, read m.2 = .ok a) ∧ read b = .error cause := by
  rw [collect] at h
  generalize (empty : Bundle α) = bundle at h
  induction ms generalizing bundle with
  | nil => cases h
  | cons m ms ih =>
    rw [List.foldlM_cons] at h
    cases hm : read m.2 with
    | error e =>
      rw [hm] at h
      obtain rfl : e = cause := Except.error.inj h
      exact ⟨[], m.1, m.2, ms, rfl, nofun, hm⟩
    | ok a =>
      rw [hm] at h
      obtain ⟨before, key, b, after, rfl, hbefore, hb⟩ := ih _ h
      exact ⟨m :: before, key, b, after, rfl, List.forall_mem_cons.mpr ⟨⟨a, hm⟩, hbefore⟩, hb⟩

theorem collect_congr {read : β → Except Error α} {read' : γ → Except Error α}
    {ms : List (String × β)} {ns : List (String × γ)}
    (h : List.Forall₂ (fun m n => m.1 = n.1 ∧ read m.2 = read' n.2) ms ns) :
    collect read ms = collect read' ns := by
  rw [collect, collect]
  generalize (empty : Bundle α) = bundle
  induction h generalizing bundle with
  | nil => rfl
  | cons hmn _ ih =>
    rw [List.foldlM_cons, List.foldlM_cons, hmn.1, hmn.2]
    exact bind_congr fun bundle => ih bundle

/-! ## Reading -/

def decode (decode : Decoder α) : Decoder (Bundle α)
  | .object ms => collect decode ms
  | v => .error (.wrongType v.found "a map")

theorem reader_follows {read : Reader α} {decode : Decoder α} {room : Nat}
    (h : read.Follows room decode) :
    (Bundle.reader read).Follows (room + 1) (Bundle.decode decode) := by
  intro big text rest v hv
  cases valueAt_of_readValue hv with
  | array hb _ =>
    simp only [Bundle.reader, hb]
    exact wrongType_of_readValue hv _
  | @object big _ inner _ ms hb hm =>
    simp only [Bundle.reader, hb]
    refine hm.foldMembers_eq (progress_readValue big) _ ?_ (Nat.le_refl _) empty
    intro bundle key colon inner v rest hc hv
    rw [member, expectColon_ok_iff.mpr hc, ok_bind, h hv]
    cases decode v <;> rfl
  | scalar hb hs =>
    obtain ⟨c, inner, heq, -, ho, -⟩ := hs.head
    have hd : Bundle.decode decode v = .error (.wrongType v.found "a map") := by
      cases v with
      | object ms => exact absurd hs.depth (Nat.succ_ne_zero _)
      | _ => rfl
    rw [Bundle.reader, hb, heq, hd]
    split
    · rename_i hc
      exact absurd (List.cons.inj hc).1 ho
    · exact wrongType_of_readValue hv _

/-- The text is that of an object with these members in this order, the given text standing for
the value of each. Between its tokens there are blanks at will. -/
def Text (sources : List (String × String)) (text : List Char) : Prop :=
  ∃ before blanks texts after,
    text = before ++ ('{' :: blanks ++ commaSeparated texts ++ ['}']) ++ after ∧
      Blank before ∧ Blank blanks ∧ Blank after ∧
        List.Forall₂ (fun text m => IsMember text m.1 m.2.toList) texts sources

/-- Such a text without blanks. -/
def sourceOf (sources : List (String × String)) : String :=
  String.ofList
    ('{' :: commaSeparated (sources.map fun m => memberText m.1 m.2.toList) ++ ['}'])

theorem text_sourceOf (sources : List (String × String)) :
    Text sources (sourceOf sources).toList := by
  refine ⟨[], [], sources.map fun m => memberText m.1 m.2.toList, [], ?_, .nil, .nil, .nil, ?_⟩
  · simp [sourceOf]
  · induction sources with
    | nil => exact .nil
    | cons m sources ih => exact .cons (isMember_memberText m.1 _) ih

/-- The text can be read as a value by itself, with room for it in another container. -/
def Loadable (source : String) : Prop :=
  ∃ v, Value.read source = .ok v ∧ v.depth ≤ 126

theorem spells_members {texts : List (List Char)} {sources : List (String × String)}
    (h : List.Forall₂ (fun text m => IsMember text m.1 m.2.toList) texts sources)
    (hs : ∀ m ∈ sources, Loadable m.2) :
    ∃ ms, List.Forall₂ (SpellsMember 126) texts ms ∧ List.Forall₂
      (fun m n => m.1 = n.1 ∧ Message.streamed 123 m.2 = Message.read n.2) ms sources := by
  induction h with
  | nil => exact ⟨[], .nil, .nil⟩
  | @cons text m texts sources hm _ ih =>
    obtain ⟨⟨v, hv, hd⟩, hs⟩ := List.forall_mem_cons.mp hs
    obtain ⟨rest, hr, hb⟩ := Value.read_ok hv
    obtain ⟨ms, hspells, hread⟩ := ih hs
    have hagree : Decoder.AgreeBelow 127 (Message.streamed 123) (Message.streamed 124) :=
      Message.agreeBelow_streamed (Nat.le_refl _) (Nat.le_succ _)
    have hstreamed : Message.streamed 123 v = Message.read m.2 := by
      rw [Message.read_of_readValue hr hb, hagree v (Nat.lt_succ_of_le hd)]
    have hvalue : Spells 126 m.2.toList v := (spells_of_readValue hr hb).of_depth_le hd
    exact ⟨(m.1, v) :: ms, .cons ⟨_, hm, hvalue⟩ hspells, .cons ⟨rfl, hstreamed⟩ hread⟩

theorem read_eq_collect {sources : List (String × String)} {source : String}
    (ht : Text sources source.toList) (hs : ∀ m ∈ sources, Loadable m.2) :
    Bundle.read source = collect Message.read sources := by
  obtain ⟨before, blanks, texts, after, htext, hbefore, hblanks, hafter, hmembers⟩ := ht
  obtain ⟨ms, hspells, hread⟩ := spells_members hmembers hs
  obtain ⟨mid, hv, hmid⟩ := ((spells_object hblanks hspells).between hbefore hafter) [] .nil
  rw [List.append_nil, ← htext] at hv
  have hbundle : Bundle.read source = Bundle.decode (Message.streamed 123) (.object ms) :=
    readAll_of_readValue (reader_follows (Message.reader_follows 123)) hv hmid
  rw [hbundle]
  exact collect_congr hread

/-! ## Main result -/

/-- **A bundle is printed as its messages are by themselves, or refused as the first of them is
that is.** The printed texts are the entries of the output. -/
theorem printed_or_refused {sources : List (String × String)} {source : String} {config : Config}
    (ht : Text sources source.toList) (hs : ∀ m ∈ sources, Loadable m.2)
    (hc : config.bundle = true) :
    ((∀ m ∈ sources, ∃ message, Message.read m.2 = .ok message) →
      ∃ bundle, Bundle.read source = .ok bundle ∧
        (Run.ofSource config source).result =
          .ok (String.ofList (bundle.texts config.layout).write) ∧
        Value.read (String.ofList (bundle.texts config.layout).write) =
          .ok (.object (members (bundle.texts config.layout).entries)) ∧
        Entries.keys (bundle.texts config.layout).entries = (sources.map (·.1)).eraseDups ∧
        ∀ key text, (key, text) ∈ (bundle.texts config.layout).entries → ∃ last,
          sources.reverse.lookup key = some last ∧
            Message.printSource config.layout last = .ok text) ∧
    ((∃ m ∈ sources, ∃ cause, Message.read m.2 = .error cause) →
      ∃ before key first after cause failure, sources = before ++ (key, first) :: after ∧
        (∀ m ∈ before, ∃ message, Message.read m.2 = .ok message) ∧
        Message.read first = .error cause ∧ Bundle.read source = .error cause ∧
        (Run.ofSource config source).result = .error failure ∧
        failure.message = "Failed to load message bundle: " ++ cause.message) := by
  have hread := read_eq_collect ht hs
  have hrun : Run.ofSource config source = Run.ofBundle config source := by
    rw [Run.ofSource, if_pos hc]
  cases hcollect : collect Message.read sources with
  | ok bundle =>
    obtain ⟨⟨hkeys, hlast⟩, hms⟩ := collected_of_collect hcollect
    refine ⟨fun _ => ⟨bundle, hread.trans hcollect, ?_, value_read_write _, ?_, ?_⟩, ?_⟩
    · rw [hrun, Run.ofBundle, hread, hcollect]
      rfl
    · rw [keys_texts, hkeys]
    · intro key text hm
      rw [texts_entries] at hm
      obtain ⟨⟨k, message⟩, hentry, heq⟩ := List.mem_map.mp hm
      obtain ⟨rfl, rfl⟩ := Prod.mk.inj heq
      obtain ⟨last, hlookup, hmessage⟩ := hlast k message hentry
      exact ⟨last, hlookup, by rw [Message.printSource, hmessage, map_ok]⟩
    · rintro ⟨m, hm, cause, hcause⟩
      obtain ⟨message, hmessage⟩ := hms m hm
      simp [hmessage] at hcause
  | error cause =>
    obtain ⟨before, key, first, after, rfl, hbefore, hfirst⟩ := first_of_collect hcollect
    refine ⟨fun hall => ?_, fun _ => ⟨before, key, first, after, cause, .bundleInvalid cause, rfl,
      hbefore, hfirst, hread.trans hcollect, ?_, ?_⟩⟩
    · obtain ⟨message, hmessage⟩ :=
        hall (key, first) (List.mem_append_right _ List.mem_cons_self)
      simp [hmessage] at hfirst
    · rw [hrun, Run.ofBundle, hread, hcollect]
    · simp [Failure.message, Failure.chain]

theorem loadable_write {m : Message} (h : m.nesting ≤ 20) : Loadable m.write := by
  have hd := m.depth_encode_le
  have hplain : (Message.encode m).Plain := ⟨Element.plain_encodeAll m, trivial⟩
  exact ⟨_, Value.read_write hplain (by rw [maxNesting]; omega), by omega⟩

/-- Something under a key, hidden by a message under the same key after it. -/
def hidingSources (hidden : String) : List (String × String) :=
  [("a", Message.write [.text "x"]), ("b", hidden), ("b", Message.write [.text "y"])]

theorem loadable_hidingSources {hidden : String} (h : Loadable hidden) :
    ∀ m ∈ hidingSources hidden, Loadable m.2 := by
  have hmessage : ∀ s, Loadable (Message.write [.text s]) := fun s =>
    loadable_write (Nat.zero_le 20)
  simp [hidingSources, hmessage, h]

theorem printed_or_refused_hiding :
    (∃ bundle output, Bundle.read (sourceOf (hidingSources (Message.write []))) = .ok bundle ∧
      (Run.ofSource ⟨false, true⟩ (sourceOf (hidingSources (Message.write [])))).result =
        .ok output ∧
      Value.read output = .ok (.object (members (bundle.texts .compact).entries)) ∧
      Entries.keys (bundle.texts .compact).entries = ["a", "b"]) ∧
    ∃ cause failure, Bundle.read (sourceOf (hidingSources "null")) = .error cause ∧
      (Run.ofSource ⟨false, true⟩ (sourceOf (hidingSources "null"))).result = .error failure ∧
      failure.message = "Failed to load message bundle: " ++ cause.message := by
  have hnull : Loadable "null" := ⟨.null, rfl, Nat.zero_le _⟩
  have hconfig : (⟨false, true⟩ : Config).bundle = true := rfl
  have haccepted : ∀ m : Message, m.nesting ≤ 20 → ∃ message, Message.read m.write = .ok message :=
    fun m hm => ⟨m, by rw [m.read_write_eq, if_pos (m.depth_le_maxNesting_iff.mpr hm)]⟩
  refine ⟨?_, ?_⟩
  · have hempty : Loadable (Message.write []) := loadable_write (Nat.zero_le 20)
    have hall : ∀ m ∈ hidingSources (Message.write []),
        ∃ message, Message.read m.2 = .ok message := by
      have hmessage : ∀ s, ∃ message, Message.read (Message.write [.text s]) = .ok message :=
        fun s => haccepted _ (Nat.zero_le 20)
      simp [hidingSources, hmessage, haccepted [] (Nat.zero_le 20)]
    obtain ⟨bundle, hread, hresult, houtput, hkeys, -⟩ := (printed_or_refused (text_sourceOf _)
      (loadable_hidingSources hempty) hconfig).1 hall
    exact ⟨bundle, _, hread, hresult, houtput, hkeys⟩
  · obtain ⟨_, _, _, _, cause, failure, -, -, -, hread, hresult, hmessage⟩ :=
      (printed_or_refused (text_sourceOf _) (loadable_hidingSources hnull) hconfig).2
        ⟨("b", "null"), by simp [hidingSources], .wrongType .null "struct Message", rfl⟩
    exact ⟨cause, failure, hread, hresult, hmessage⟩

end Bundle

end IcuMessage
