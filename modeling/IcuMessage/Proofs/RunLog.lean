/-
What a run logs. The arguments it traces are those of the tree it has read, in
the order in which they stand in it (`Element.arguments_print`): of a message
all that have a format, of a bundle those of the last message under each key.
What is logged besides is the start and how much was read; whatever fails has
logged the start only.
-/
import Mathlib.Data.List.Perm.Basic
import IcuMessage.Proofs.BundleText
import IcuMessage.Proofs.Message.Preorder

namespace IcuMessage

open Json

/-! ## The tree -/

/-- The trace of a message: a record for each argument that has a format, in document order. -/
def Message.trace (message : Message) : List String :=
  ((Element.preorderAll message).filterMap Element.formatted?).map fun (id, type) =>
    "printing argument `" ++ String.ofList id.text ++ "` as " ++ type.name

theorem Message.trace_eq (message : Message) (layout : Layout) :
    (Event.ofPrinted (message.print layout)).map Event.text = message.trace := by
  rw [Event.ofPrinted, Message.print, Element.arguments_printAll, List.map_map]
  rfl

/-! ## Bundles -/

/-- The source is the text of an object with these members, each value the text of a message. -/
def Bundle.TextOf (sources : List (String × String)) (messages : List (String × Message))
    (source : String) : Prop :=
  Bundle.Text sources source.toList ∧
    List.Forall₂ (fun s m => s.1 = m.1 ∧ Message.read s.2 = .ok m.2) sources messages

/-- For each key, in the order of their first occurrences, what stands under it last. -/
def Entries.lasts {α : Type} (entries : List (String × α)) : List α :=
  (keys entries).eraseDups.filterMap fun key => entries.reverse.lookup key

theorem Entries.put_of_not_mem {α : Type} {key : String} {entries : List (String × α)}
    (h : key ∉ keys entries) (a : α) : put key a entries = entries ++ [(key, a)] := by
  induction entries with
  | nil => rfl
  | cons entry rest ih =>
    have hne : key ≠ entry.1 := List.ne_of_not_mem_cons h
    have hrest : key ∉ keys rest := List.not_mem_of_not_mem_cons h
    rw [put, if_neg hne.symm, ih hrest, List.cons_append]

namespace Bundle

variable {α : Type}

theorem values_of_collect {ms : List (String × α)} {bundle : Bundle α}
    (h : collect .ok ms = .ok bundle) : bundle.entries.map (·.2) = Entries.lasts ms := by
  obtain ⟨⟨hkeys, hlast⟩, -⟩ := collected_of_collect h
  rw [Entries.lasts, Entries.keys, ← hkeys, Entries.keys, List.filterMap_map,
    ← List.filterMap_eq_map]
  refine List.filterMap_congr fun entry he => ?_
  obtain ⟨b, hb, heq⟩ := hlast entry.1 entry.2 he
  obtain rfl : b = entry.2 := Except.ok.inj heq
  exact hb.symm

theorem size_of_collect {ms : List (String × α)} {bundle : Bundle α}
    (h : collect .ok ms = .ok bundle) : bundle.size = (Entries.keys ms).eraseDups.length := by
  rw [Entries.keys, ← (collected_of_collect h).1.keys, Entries.keys, List.length_map]
  rfl

/-- Without repeated keys every member becomes an entry. -/
theorem collect_of_nodup {ms : List (String × α)} (h : (Entries.keys ms).Nodup) :
    collect .ok ms = .ok ⟨ms, h⟩ := by
  induction ms using List.reverseRecOn with
  | nil => rfl
  | append_singleton ms m ih =>
    rw [Entries.keys, List.map_append, List.nodup_append] at h
    obtain ⟨hms, -, hdisjoint⟩ := h
    have hm : m.1 ∉ Entries.keys ms := fun hk => hdisjoint m.1 hk m.1 (by simp) rfl
    rw [collect, List.foldlM_append]
    show collect .ok ms >>= _ = _
    rw [ih hms, ok_bind]
    simp [List.foldlM_cons, put, Entries.put_of_not_mem hm]

end Bundle

/-! ## Logs -/

namespace Run

/-- What is logged when a run starts, of a bundle or of a message. -/
def startRecord (config : Config) : String :=
  "printing " ++ (if config.bundle then "bundle" else "message") ++
    " (pretty_print: " ++ toString config.prettyPrint ++ ")"

theorem log_of_events {run : Run} {config : Config} {load : Event} {printed : List Event}
    (h : run.events = .started config :: load :: printed) (hl : load.level = .debug)
    (hp : ∀ event ∈ printed, event.level = .trace) :
    run.log .trace = printed.map Event.text ∧
      run.log .debug = [startRecord config, load.text] := by
  have htrace : printed.filter (fun event => event.level = .trace) = printed :=
    List.filter_eq_self.mpr fun event he => by simp [hp event he]
  have hdebug : printed.filter (fun event => event.level = .debug) = [] :=
    List.filter_eq_nil_iff.mpr fun event he => by simp [hp event he]
  have hstart : (Event.started config).level = .debug := rfl
  have hrecord : (Event.started config).text = startRecord config := rfl
  simp [log, h, hl, hstart, htrace, hdebug, hrecord]

theorem log_of_started {run : Run} {config : Config} (h : run.events = [.started config]) :
    run.log .trace = [] ∧ run.log .debug = [startRecord config] := by
  rw [log, log, h]
  exact ⟨rfl, rfl⟩

theorem level_ofPrinted {printed : Printed} {event : Event} (h : event ∈ Event.ofPrinted printed) :
    event.level = .trace := by
  obtain ⟨_, -, rfl⟩ := List.mem_map.mp h
  rfl

variable {config : Config} {source : String}

theorem ofSource_message (hc : config.bundle = false) :
    ofSource config source = ofMessage config source := by
  rw [ofSource, hc]
  rfl

theorem ofSource_bundle (hc : config.bundle = true) :
    ofSource config source = ofBundle config source := by
  rw [ofSource, if_pos hc]

theorem log_ofMessage {message : Message} (h : Message.read source = .ok message) :
    (ofMessage config source).log .trace = message.trace ∧
      (ofMessage config source).log .debug =
        [startRecord config, "loaded message with " ++ toString message.length ++ " elements"] := by
  have hevents : (ofMessage config source).events = .started config ::
      .messageLoaded message.length :: Event.ofPrinted (message.print config.layout) := by
    rw [ofMessage, h]
  have hlog := log_of_events hevents rfl fun _ => level_ofPrinted
  rwa [Message.trace_eq] at hlog

theorem log_ofBundle {bundle : Bundle Message} (h : Bundle.read source = .ok bundle) :
    (ofBundle config source).log .trace = (bundle.entries.map (·.2)).flatMap Message.trace ∧
      (ofBundle config source).log .debug =
        [startRecord config, "loaded bundle with " ++ toString bundle.size ++ " messages"] := by
  have hevents : (ofBundle config source).events = .started config :: .bundleLoaded bundle.size ::
      bundle.entries.flatMap (fun entry => Event.ofPrinted (entry.2.print config.layout)) := by
    rw [ofBundle, h]
    simp only [Bundle.print, Bundle.map, List.flatMap_map]
  have hlog := log_of_events hevents rfl fun event he => by
    obtain ⟨entry, -, he⟩ := List.mem_flatMap.mp he
    exact level_ofPrinted he
  simp only [List.map_flatMap, Message.trace_eq] at hlog
  rwa [List.flatMap_map]

theorem ofMessage_ok {output : String} (h : (ofMessage config source).result = .ok output) :
    ∃ message, Message.read source = .ok message := by
  cases hread : Message.read source with
  | error cause => simp [ofMessage, hread] at h
  | ok message => exact ⟨message, rfl⟩

theorem ofBundle_ok {output : String} (h : (ofBundle config source).result = .ok output) :
    ∃ bundle, Bundle.read source = .ok bundle := by
  cases hread : Bundle.read source with
  | error cause => simp [ofBundle, hread] at h
  | ok bundle => exact ⟨bundle, rfl⟩

theorem events_of_error {failure : Failure} (h : (ofSource config source).result = .error failure) :
    (ofSource config source).events = [.started config] := by
  cases hc : config.bundle with
  | false =>
    rw [ofSource_message hc] at h ⊢
    cases hread : Message.read source with
    | error cause => rw [ofMessage, hread]
    | ok message => simp [ofMessage, hread] at h
  | true =>
    rw [ofSource_bundle hc] at h ⊢
    cases hread : Bundle.read source with
    | error cause => rw [ofBundle, hread]
    | ok bundle => simp [ofBundle, hread] at h

/-- The layout does not show in the trace. -/
theorem trace_eq_of_bundle_eq {config' : Config} (h : config'.bundle = config.bundle) :
    (ofSource config' source).log .trace = (ofSource config source).log .trace := by
  cases hc : config.bundle with
  | false =>
    rw [ofSource_message hc, ofSource_message (h.trans hc)]
    cases hread : Message.read source with
    | error cause => simp [ofMessage, hread, log, Event.level]
    | ok message => rw [(log_ofMessage hread).1, (log_ofMessage hread).1]
  | true =>
    rw [ofSource_bundle hc, ofSource_bundle (h.trans hc)]
    cases hread : Bundle.read source with
    | error cause => simp [ofBundle, hread, log, Event.level]
    | ok bundle => rw [(log_ofBundle hread).1, (log_ofBundle hread).1]

/-- A bundle of the same messages under the same keys, in another order, leaves the same trace. -/
theorem trace_perm {sources : List (String × String)} {ms : List (String × Message)}
    (ht : Bundle.Text sources source.toList) (h : Bundle.MessagesOf sources ms)
    (hn : (Entries.keys sources).Nodup) {sources' : List (String × String)} {source' : String}
    (hp : sources'.Perm sources) (ht' : Bundle.Text sources' source'.toList) :
    (∃ output, (ofBundle config source').result = .ok output) ∧
      ((ofBundle config source').log .trace).Perm ((ofBundle config source).log .trace) := by
  obtain ⟨ms', h', hms⟩ := List.perm_comp_forall₂ hp h
  have hnodup : (Entries.keys ms).Nodup := h.keys_eq ▸ hn
  have hnodup' : (Entries.keys ms').Nodup := (hms.map _).nodup_iff.mpr hnodup
  have hread : Bundle.read source = .ok ⟨ms, hnodup⟩ :=
    (Bundle.read_eq_collect_of_messages ht h).trans (Bundle.collect_of_nodup hnodup)
  have hread' : Bundle.read source' = .ok ⟨ms', hnodup'⟩ :=
    (Bundle.read_eq_collect_of_messages ht' h').trans (Bundle.collect_of_nodup hnodup')
  refine ⟨⟨_, by rw [ofBundle, hread']⟩, ?_⟩
  rw [(log_ofBundle hread).1, (log_ofBundle hread').1]
  exact (hms.map _).flatMap_right _

/-- **A run logs the tree it has printed**, after records of its start and of what it has read. A
run that fails logs its start only. -/
theorem log_ofSource (config : Config) (source : String) :
    (∀ failure, (ofSource config source).result = .error failure →
      (ofSource config source).events = [.started config] ∧
      (ofSource config source).log .trace = [] ∧
      (ofSource config source).log .debug = [startRecord config]) ∧
    (∀ output, (ofSource config source).result = .ok output → config.bundle = false →
      ∃ message, Message.read source = .ok message ∧
        (ofSource config source).log .trace = message.trace ∧
        (ofSource config source).log .debug =
          [startRecord config,
            "loaded message with " ++ toString message.length ++ " elements"]) ∧
    (∀ output, (ofSource config source).result = .ok output → config.bundle = true →
      (∃ sources messages, Bundle.TextOf sources messages source) ∧
      ∀ sources messages, Bundle.TextOf sources messages source →
        ((ofSource config source).log .trace).Perm
          ((Entries.lasts messages).flatMap Message.trace) ∧
        (ofSource config source).log .debug = [startRecord config, "loaded bundle with " ++
          toString (Entries.keys messages).eraseDups.length ++ " messages"] ∧
        ((Entries.keys sources).Nodup → ∀ sources' source', sources'.Perm sources →
          Bundle.Text sources' source'.toList →
          ∃ output', (ofSource config source').result = .ok output' ∧
            ((ofSource config source').log .trace).Perm ((ofSource config source).log .trace))) ∧
    ∀ prettyPrint, (ofSource { config with prettyPrint := prettyPrint } source).log .trace =
      (ofSource config source).log .trace := by
  refine ⟨fun failure h => ?_, fun output h hc => ?_, fun output h hc => ?_,
    fun _ => trace_eq_of_bundle_eq rfl⟩
  · have hevents := events_of_error h
    exact ⟨hevents, log_of_started hevents⟩
  · rw [ofSource_message hc] at h ⊢
    obtain ⟨message, hread⟩ := ofMessage_ok h
    exact ⟨message, hread, log_ofMessage hread⟩
  · rw [ofSource_bundle hc] at h ⊢
    obtain ⟨bundle, hread⟩ := ofBundle_ok h
    refine ⟨?_, fun sources ms htext => ?_⟩
    · obtain ⟨sources, ms, ht, hms⟩ := Bundle.exists_text_of_read hread
      exact ⟨sources, ms, ht, hms.read⟩
    obtain ⟨ht, hs⟩ := htext
    have hms := Bundle.messagesOf_of_read ht hs hread
    have hcollect : Bundle.collect .ok ms = .ok bundle :=
      (Bundle.read_eq_collect_of_messages ht hms).symm.trans hread
    obtain ⟨htrace, hdebug⟩ := @log_ofBundle config source bundle hread
    rw [Bundle.values_of_collect hcollect] at htrace
    rw [Bundle.size_of_collect hcollect] at hdebug
    refine ⟨.of_eq htrace, hdebug, fun hn sources' source' hp ht' => ?_⟩
    obtain ⟨⟨output', houtput⟩, hperm⟩ := trace_perm ht hms hn hp ht'
    exact ⟨output', by rwa [ofSource_bundle hc], by rwa [ofSource_bundle hc]⟩

/-- A placeholder, and an argument with another in its only option. -/
def nestedMessage : Message :=
  [.placeholder (.name "p"), .argument (.name "n")
    (.branching .selectOrdinal none [⟨"o", [.argument (.index 0) (.simple .date none)]⟩])]

def nestedTrace : List String :=
  ["printing argument `n` as selectordinal", "printing argument `0` as date"]

/-- The message under a key after another that is read but not printed. -/
def repeatedMessages : List (String × Message) :=
  [("k", [.argument (.name "x") (.simple .date none)]), ("k", nestedMessage)]

def repeatedSources : List (String × String) :=
  repeatedMessages.map fun m => (m.1, m.2.write)

theorem nesting_repeatedMessages : ∀ m ∈ repeatedMessages, m.2.nesting ≤ 20 := by
  decide

theorem read_repeatedMessages :
    ∀ m ∈ repeatedMessages, Message.read m.2.write = .ok m.2 := by
  intro m hm
  have hdepth := m.2.depth_le_maxNesting_iff.mpr (nesting_repeatedMessages m hm)
  rw [Message.read_write_eq, if_pos hdepth]

theorem textOf_repeatedSources :
    Bundle.TextOf repeatedSources repeatedMessages (Bundle.sourceOf repeatedSources) := by
  refine ⟨Bundle.text_sourceOf _, ?_⟩
  rw [repeatedSources, List.forall₂_map_left_iff]
  exact List.forall₂_same.mpr fun m hm => ⟨rfl, read_repeatedMessages m hm⟩

theorem exists_result_repeatedSources : ∃ output,
    (ofSource ⟨false, true⟩ (Bundle.sourceOf repeatedSources)).result = .ok output := by
  have hload : ∀ s ∈ repeatedSources, Bundle.Loadable s.2 := by
    intro s hs
    obtain ⟨m, hm, rfl⟩ := List.mem_map.mp hs
    exact Bundle.loadable_write (nesting_repeatedMessages m hm)
  have hread : Bundle.read (Bundle.sourceOf repeatedSources) =
      Bundle.collect .ok repeatedMessages := by
    rw [Bundle.read_eq_collect textOf_repeatedSources.1 hload,
      Bundle.collect_congr textOf_repeatedSources.2]
  rw [ofSource_bundle rfl, ofBundle, hread]
  exact ⟨_, rfl⟩

/-- All that is logged of a message, of a bundle and of a source that is neither. -/
theorem log_ofSource_nested :
    (∃ message, Message.read nestedMessage.write = .ok message ∧ message.trace = nestedTrace ∧
      (ofSource ⟨true, false⟩ nestedMessage.write).log .trace = message.trace ∧
      (ofSource ⟨true, false⟩ nestedMessage.write).log .debug =
        ["printing message (pretty_print: true)", "loaded message with 2 elements"]) ∧
    (((ofSource ⟨false, true⟩ (Bundle.sourceOf repeatedSources)).log .trace).Perm nestedTrace ∧
      (ofSource ⟨false, true⟩ (Bundle.sourceOf repeatedSources)).log .debug =
        ["printing bundle (pretty_print: false)", "loaded bundle with 1 messages"]) ∧
    (ofSource ⟨false, true⟩ "null").log .trace = [] ∧
      (ofSource ⟨false, true⟩ "null").log .debug =
        ["printing bundle (pretty_print: false)"] := by
  have hnested : Message.read nestedMessage.write = .ok nestedMessage :=
    read_repeatedMessages ("k", nestedMessage) (by simp [repeatedMessages])
  refine ⟨?_, ?_, ?_⟩
  · have hresult : (ofSource ⟨true, false⟩ nestedMessage.write).result =
        .ok (Message.text .pretty nestedMessage) := by
      rw [ofSource_message rfl, ofMessage, hnested]
      rfl
    obtain ⟨message, hmessage, htrace, hdebug⟩ := (log_ofSource _ _).2.1 _ hresult rfl
    obtain rfl : nestedMessage = message := Except.ok.inj (hnested.symm.trans hmessage)
    refine ⟨nestedMessage, hmessage, by decide +kernel, htrace, hdebug.trans ?_⟩
    decide +kernel
  · obtain ⟨output, hresult⟩ := exists_result_repeatedSources
    obtain ⟨-, hlogs⟩ := (log_ofSource _ _).2.2.1 output hresult rfl
    obtain ⟨hperm, hdebug, -⟩ := hlogs _ _ textOf_repeatedSources
    have hlasts : (Entries.lasts repeatedMessages).flatMap Message.trace = nestedTrace := by
      decide +kernel
    rw [hlasts] at hperm
    exact ⟨hperm, hdebug.trans (by decide +kernel)⟩
  · have hresult : (ofSource ⟨false, true⟩ "null").result =
        .error (.bundleInvalid (.wrongType .null "a map")) := rfl
    obtain ⟨-, htrace, hdebug⟩ := (log_ofSource _ _).1 _ hresult
    exact ⟨htrace, hdebug.trans (by decide +kernel)⟩

end Run

end IcuMessage
