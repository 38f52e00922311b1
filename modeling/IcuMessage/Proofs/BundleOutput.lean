/-
What a bundle run puts out is JSON again: an object with a string for each
printed message, on a line of its own (`Bundle.text_write`). Read as a value,
which keeps every member where it stands, the output has the entries of the
printed bundle and nothing else, whatever characters their keys and texts have.
-/
import IcuMessage.Run
import IcuMessage.Proofs.Message.Wrapping

namespace IcuMessage

open Json

namespace Bundle

/-! ## Entries as members -/

/-- The members of an object of strings. -/
def members (entries : List (String × String)) : List (String × Value) :=
  entries.map fun entry => (entry.1, .string entry.2)

theorem depth_members (entries : List (String × String)) :
    Value.depthMembers (members entries) = 0 := by
  refine Nat.le_zero.mp (Value.depthMembers_le fun m hm => ?_)
  obtain ⟨entry, -, rfl⟩ := List.mem_map.mp hm
  exact Nat.le_refl _

theorem isMember_writeEntry (entry : String × String) (after : List Char) :
    IsMember (writeEntry entry ++ after) entry.1
      ([' '] ++ StringLiteral.write entry.2 ++ after) := by
  refine ⟨"\n  ".toList, entry.1.toList.flatMap StringLiteral.writeChar ++ ['"'], [], ?_,
    by decide, .nil, StringLiteral.read_write entry.1 []⟩
  simp [writeEntry, StringLiteral.write]

theorem text_entryValue (s : String) {after : List Char} (ha : Blank after) :
    (Value.string s).Text ([' '] ++ StringLiteral.write s ++ after) :=
  .between (by decide) ha (.scalar (scalarAt_string s))

/-- The line break before the closing brace goes to the value of the last entry. -/
theorem memberTexts_entries (entry : String × String) (entries : List (String × String)) :
    ∃ texts, commaSeparated ((entry :: entries).map writeEntry) ++ ['\n'] = commaSeparated texts ∧
      Value.MemberTexts (members (entry :: entries)) texts := by
  induction entries generalizing entry with
  | nil =>
    have hblank : Blank ['\n'] := by decide
    have hvalue := text_entryValue entry.2 hblank
    refine ⟨[writeEntry entry ++ ['\n']], by simp [commaSeparated], ?_⟩
    exact .cons (isMember_writeEntry entry ['\n']) hvalue .nil
  | cons next entries ih =>
    obtain ⟨texts, heq, htexts⟩ := ih next
    have hmember := isMember_writeEntry entry []
    have hvalue := text_entryValue entry.2 .nil
    refine ⟨writeEntry entry :: texts, ?_, .cons (by simpa using hmember) hvalue htexts⟩
    obtain ⟨text, rest, rfl⟩ : ∃ text rest, texts = text :: rest := by
      cases htexts with
      | cons => exact ⟨_, _, rfl⟩
    rw [List.map_cons, List.map_cons, commaSeparated_cons_cons, commaSeparated_cons_cons, ← heq]
    simp

theorem text_write (bundle : Bundle String) :
    (Value.object (members bundle.entries)).Text bundle.write := by
  rw [write]
  split
  · rename_i h
    rw [h]
    exact .object .nil .nil
  · rename_i hne
    obtain ⟨entry, entries, hentries⟩ := List.exists_cons_of_ne_nil hne
    obtain ⟨texts, heq, htexts⟩ := memberTexts_entries entry entries
    have htext : '{' :: commaSeparated (bundle.entries.map writeEntry) ++ ['\n', '}'] =
        '{' :: [] ++ commaSeparated texts ++ ['}'] := by
      rw [hentries, ← heq]
      simp
    rw [htext, hentries]
    exact .object .nil htexts

/-! ## Texts as entries -/

theorem texts_entries (layout : Layout) (bundle : Bundle Message) :
    (bundle.texts layout).entries = bundle.entries.map fun m => (m.1, Message.text layout m.2) := by
  simp only [texts, print, map, List.map_map]
  rfl

theorem keys_texts (layout : Layout) (bundle : Bundle Message) :
    Entries.keys (bundle.texts layout).entries = Entries.keys bundle.entries := by
  rw [texts_entries, Entries.keys, Entries.keys, List.map_map]
  rfl

/-- As a value, what is written of a bundle of strings has its entries. -/
theorem value_read_write (bundle : Bundle String) :
    Value.read (String.ofList bundle.write) = .ok (.object (members bundle.entries)) := by
  refine Value.read_text (by rw [String.toList_ofList]; exact bundle.text_write) ?_
  rw [Value.depth, depth_members, maxNesting]
  omega

/-! ## Main result -/

/-- **The output of a bundle run, read as JSON, has the entries of the printed bundle**, each key
once and each text as it was printed. -/
theorem read_output {config : Config} {source output : String} (hc : config.bundle = true)
    (h : (Run.ofSource config source).result = .ok output) :
    ∃ bundle, Bundle.read source = .ok bundle ∧
      (bundle.texts config.layout).entries =
        bundle.entries.map (fun entry => (entry.1, Message.text config.layout entry.2)) ∧
      (Entries.keys (bundle.texts config.layout).entries).Nodup ∧
      (Value.object (members (bundle.texts config.layout).entries)).Text output.toList ∧
      Value.read output = .ok (.object (members (bundle.texts config.layout).entries)) ∧
      (bundle.entries = [] ↔ output = "\x7b\x7d") := by
  rw [Run.ofSource, if_pos hc, Run.ofBundle] at h
  cases hread : Bundle.read source with
  | error cause => simp [hread] at h
  | ok bundle =>
    rw [hread] at h
    obtain rfl : String.ofList (bundle.texts config.layout).write = output := Except.ok.inj h
    have hentries := texts_entries config.layout bundle
    have htext := text_write (bundle.texts config.layout)
    have hread := value_read_write (bundle.texts config.layout)
    refine ⟨bundle, rfl, hentries, (bundle.texts config.layout).distinct, ?_, hread, ?_, ?_⟩
    · rwa [String.toList_ofList]
    · intro hnil
      rw [write, hentries, hnil]
      rfl
    · intro hempty
      -- The text of the empty object is read as that of no other.
      have hobject : Value.read "\x7b\x7d" = .ok (.object []) := rfl
      rw [hempty, hobject] at hread
      simpa [members, hentries] using hread

/-- A quote and a control character in a key that is repeated, and a text of several lines with a
backslash, a brace, U+007F and a letter that is not ASCII. -/
def quotedSource : String :=
  "\x7b\"\\\"\\u0001\":\x7b\"elements\":[]\x7d,\"\\\"\\u0001\":\x7b\"elements\":[" ++
    "\x7b\"type\":\"messageTextElement\",\"value\":\"\\\\\x7b\\u007f\\u00e9\"\x7d," ++
    "[\"argumentElement\",\"n\",[\"selectFormat\",null,[[\"a\",[[]]]]]]]\x7d,\"\":[[]]\x7d"

def quotedOutput : String :=
  "\x7b\n  \"\\\"\\u0001\": \"\\\\\\\\\\\\\x7b\x7fé\x7bn, select,\\n   a \x7b\x7d\\n\x7d\",\n" ++
    "  \"\": \"\"\n\x7d"

theorem read_output_quoted :
    (Run.ofSource ⟨true, true⟩ quotedSource).result = .ok quotedOutput ∧
      ∃ bundle, Bundle.read quotedSource = .ok bundle ∧
        (Entries.keys (bundle.texts .pretty).entries).Nodup ∧
        Value.read quotedOutput = .ok (.object (members (bundle.texts .pretty).entries)) := by
  have h : (Run.ofSource ⟨true, true⟩ quotedSource).result = .ok quotedOutput :=
    toOption_eq_some_iff.mp (by decide +kernel)
  obtain ⟨bundle, hread, -, hkeys, -, hvalue, -⟩ := read_output rfl h
  exact ⟨h, bundle, hread, hkeys, hvalue⟩

end Bundle

end IcuMessage
