/-
Config files. A text that stands for a JSON value is a config if the value says
one (`Config.WrittenAs`): each switch is there at most once and as a boolean,
by its name or by its place in an array, and whatever else an object has does
not count. That members and items are read so is `Config.foldlM_member_ok_iff`
and `Config.streamedItems_ok_iff`.
-/
import IcuMessage.Proofs.CommandStages
import IcuMessage.Proofs.Json.MemberOrder
import IcuMessage.Proofs.Message.Wrapping

namespace IcuMessage

open Json

/-! ## Booleans -/

namespace Json

variable {σ α : Type}

theorem Decoder.bool_ok_iff {v : Value} {b : Bool} : Decoder.bool v = .ok b ↔ v = .bool b := by
  cases v <;> simp [Decoder.bool]

theorem Reader.Follows.bool (room : Nat) : Reader.bool.Follows room Decoder.bool := by
  intro big text rest v hv
  cases valueAt_of_readValue hv with
  | array hb _ | object hb _ =>
    simp only [Reader.bool, hb]
    exact wrongType_of_readValue hv _
  | scalar hb hs =>
    cases hs with
    | true | false =>
      simp only [Reader.bool, hb, expectWord_ok_iff.mpr rfl]
      rfl
    | null | string =>
      simp only [Reader.bool, hb]
      exact wrongType_of_readValue hv _
    | @number inner _ c l _ hc hl hlv =>
      obtain ⟨-, ht, hf, -⟩ := number_head hc
      have hd : Decoder.bool v = .error (.wrongType v.found "a boolean") := by
        obtain ⟨n, rfl⟩ | ⟨bits, rfl⟩ := l.value_ok hlv <;> rfl
      rw [Reader.bool, hb, hd]
      split
      · rename_i heq
        exact absurd (List.cons.inj heq).1 ht
      · rename_i heq
        exact absurd (List.cons.inj heq).1 hf
      · exact wrongType_of_readValue hv _

theorem Decoder.member_bool_ok_iff {r : Record Decoder σ α} {name : String} {set : Bool → σ → σ}
    (hf : r.field? name = some ⟨name, set <$> Decoder.bool⟩) {s s' : List String × σ} {v : Value} :
    Decoder.member r s (name, v) = .ok s' ↔
      name ∉ s.1 ∧ ∃ b, v = .bool b ∧ s' = (name :: s.1, set b s.2) := by
  rw [Decoder.member_ok_iff]
  constructor
  · rintro (⟨hnone, -⟩ | ⟨field, store, hfield, hnew, hstore, rfl⟩)
    · nomatch hnone.symm.trans hf
    · obtain rfl := Option.some.inj (hfield.symm.trans hf)
      obtain ⟨b, hb, rfl⟩ := Decoder.ok_of_map hstore
      exact ⟨hnew, b, Decoder.bool_ok_iff.mp hb, rfl⟩
  · rintro ⟨hnew, b, rfl, rfl⟩
    exact .inr ⟨_, _, hf, hnew, rfl, rfl⟩

theorem Decoder.foldlM_bool_ok_iff {r : Record Decoder σ α} {name : String} {set : Bool → σ → σ}
    (hf : r.field? name = some ⟨name, set <$> Decoder.bool⟩) {seen : List String} {s s' : σ}
    {v : Value} {ms : List (String × Value)} :
    (∃ seen', ((name, v) :: ms).foldlM (Decoder.member r) (seen, s) = .ok (seen', s')) ↔
      name ∉ seen ∧ ∃ b, v = .bool b ∧
        ∃ seen', ms.foldlM (Decoder.member r) (name :: seen, set b s) = .ok (seen', s') := by
  simp only [List.foldlM_cons, bind_ok_iff, Decoder.member_bool_ok_iff hf]
  constructor
  · rintro ⟨seen', _, ⟨hnew, b, rfl, rfl⟩, h⟩
    exact ⟨hnew, b, rfl, seen', h⟩
  · rintro ⟨hnew, b, rfl, seen', h⟩
    exact ⟨seen', _, ⟨hnew, b, rfl, rfl⟩, h⟩

theorem Decoder.storeItems_bool_ok {set : Bool → σ → σ} {name : String} {v : Value}
    {fields : List (Field Decoder σ)} {items : List Value} {state state' : σ}
    (h : Decoder.storeItems (⟨name, set <$> Decoder.bool⟩ :: fields) (v :: items) state =
      .ok state') :
    ∃ b, v = .bool b ∧ Decoder.storeItems fields items (set b state) = .ok state' := by
  obtain ⟨store, hstore, h⟩ := bind_ok_iff.mp h
  obtain ⟨b, hb, rfl⟩ := Decoder.ok_of_map hstore
  exact ⟨b, Decoder.bool_ok_iff.mp hb, h⟩

/-! ## Members of a name -/

/-- What is written under a name, in order and with repetitions. -/
def valuesOf (name : String) (members : List (String × Value)) : List Value :=
  (members.filter (·.1 == name)).map (·.2)

@[simp] theorem valuesOf_nil (name : String) : valuesOf name [] = [] :=
  rfl

@[simp] theorem valuesOf_cons_self (name : String) (v : Value) (ms : List (String × Value)) :
    valuesOf name ((name, v) :: ms) = v :: valuesOf name ms := by
  simp [valuesOf]

theorem valuesOf_cons_of_ne {name key : String} (h : key ≠ name) (v : Value)
    (ms : List (String × Value)) : valuesOf name ((key, v) :: ms) = valuesOf name ms := by
  simp [valuesOf, h]

end Json

namespace Config

/-- A switch among the members of an object: one boolean, or nothing, and then it is off. -/
def Switched (name : String) (members : List (String × Value)) (b : Bool) : Prop :=
  valuesOf name members = [.bool b] ∨ valuesOf name members = [] ∧ b = false

/-- The values that say a config: objects, of whose members only the switches count, and arrays of
no more than the switches. -/
inductive WrittenAs : Config → Value → Prop
  | object {members : List (String × Value)} {prettyPrint bundle : Bool}
      (hp : Switched "prettyPrint" members prettyPrint) (hb : Switched "bundle" members bundle) :
      WrittenAs ⟨prettyPrint, bundle⟩ (.object members)
  | array (switches : List Bool) (h : switches.length ≤ 2) :
      WrittenAs ⟨switches.getD 0 false, switches.getD 1 false⟩ (.array (switches.map .bool))

/-- A config as it is decoded from a value. -/
def decoded : Record Decoder Config Config where
  title := record.title
  fields :=
    [⟨"prettyPrint", (fun b config => { config with prettyPrint := b }) <$> Decoder.bool⟩,
      ⟨"bundle", (fun b config => { config with bundle := b }) <$> Decoder.bool⟩]
  start := record.start
  finish := record.finish

theorem decoded_prettyPrint : decoded.field? "prettyPrint" = some ⟨"prettyPrint",
    (fun b config => { config with prettyPrint := b }) <$> Decoder.bool⟩ :=
  rfl

theorem decoded_bundle : decoded.field? "bundle" = some ⟨"bundle",
    (fun b config => { config with bundle := b }) <$> Decoder.bool⟩ :=
  rfl

theorem record_rel (room : Nat) :
    record.Rel (fun read decode => Reader.Follows read room decode) decoded where
  title := rfl
  start := rfl
  finish := rfl
  fields :=
    .cons ⟨rfl, (Reader.Follows.bool room).map _⟩
      (.cons ⟨rfl, (Reader.Follows.bool room).map _⟩ .nil)

/-! ## Members -/

/-- Going over members, a switch that was `b` becomes `b'`: by the only member of its name, which
must not come after others, or because there is none. -/
def Takes (name : String) (seen : List String) (members : List (String × Value)) (b b' : Bool) :
    Prop :=
  (name ∉ seen ∧ valuesOf name members = [.bool b']) ∨ (valuesOf name members = [] ∧ b' = b)

section

variable {name key : String} {seen : List String} {v : Value} {ms : List (String × Value)}
  {b b' : Bool}

theorem takes_nil : Takes name seen [] b b' ↔ b' = b := by
  simp [Takes]

theorem takes_unseen : Takes name [] ms false b ↔ Switched name ms b := by
  simp [Takes, Switched]

theorem takes_cons_self : Takes name seen ((name, v) :: ms) b b' ↔
    name ∉ seen ∧ ∃ d, v = .bool d ∧ Takes name (name :: seen) ms d b' := by
  simp [Takes]

theorem takes_cons_of_ne (h : key ≠ name) :
    Takes name seen ((key, v) :: ms) b b' ↔ Takes name seen ms b b' := by
  rw [Takes, valuesOf_cons_of_ne h, Takes]

theorem takes_seen_of_ne (h : key ≠ name) :
    Takes name (key :: seen) ms b b' ↔ Takes name seen ms b b' := by
  simp [Takes, h.symm]

end

theorem foldlM_member_ok_iff {ms : List (String × Value)} {seen : List String} {c c' : Config} :
    (∃ seen', ms.foldlM (Decoder.member decoded) (seen, c) = .ok (seen', c')) ↔
      Takes "prettyPrint" seen ms c.prettyPrint c'.prettyPrint ∧
        Takes "bundle" seen ms c.bundle c'.bundle := by
  induction ms generalizing seen c with
  | nil =>
    obtain ⟨p, b⟩ := c
    obtain ⟨p', b'⟩ := c'
    simp [takes_nil, pure, Except.pure, eq_comm]
  | cons m ms ih =>
    obtain ⟨key, v⟩ := m
    have hne : ("prettyPrint" : String) ≠ "bundle" := by decide
    by_cases hp : key = "prettyPrint"
    · subst hp
      rw [Decoder.foldlM_bool_ok_iff decoded_prettyPrint, takes_cons_self, takes_cons_of_ne hne,
        ← takes_seen_of_ne hne]
      simp only [ih, ← and_assoc, exists_and_right]
    · by_cases hb : key = "bundle"
      · subst hb
        rw [Decoder.foldlM_bool_ok_iff decoded_bundle, takes_cons_self, takes_cons_of_ne hne.symm,
          ← takes_seen_of_ne hne.symm]
        simp only [ih, and_left_comm, exists_and_left]
      · have hnone : decoded.field? key = none := by
          simp [Record.field?, decoded, Ne.symm hp, Ne.symm hb]
        rw [List.foldlM_cons, Decoder.member_of_no_field hnone, takes_cons_of_ne hp,
          takes_cons_of_ne hb]
        exact ih

theorem ofMembers_ok_iff {ms : List (String × Value)} {config : Config} :
    Decoder.ofMembers decoded ms = .ok config ↔ WrittenAs config (.object ms) := by
  have hfold : Decoder.ofMembers decoded ms = .ok config ↔
      ∃ seen, ms.foldlM (Decoder.member decoded) ([], {}) = .ok (seen, config) := by
    rw [Decoder.ofMembers, bind_ok_iff]
    constructor
    · rintro ⟨⟨seen, c⟩, hs, ⟨⟩⟩
      exact ⟨seen, hs⟩
    · rintro ⟨seen, hs⟩
      exact ⟨_, hs, rfl⟩
  rw [hfold, foldlM_member_ok_iff, takes_unseen, takes_unseen]
  constructor
  · rintro ⟨hp, hb⟩
    exact .object hp hb
  · rintro (⟨hp, hb⟩)
    exact ⟨hp, hb⟩

/-! ## Items -/

theorem streamedItems_ok_iff {items : List Value} {config : Config} :
    Decoder.streamedItems decoded items = .ok config ↔ WrittenAs config (.array items) := by
  constructor
  · intro h
    obtain ⟨c, hc, h⟩ := bind_ok_iff.mp h
    split at h
    · simp at h
    · rename_i hl
      obtain rfl : c = config := Except.ok.inj h
      match items, hc, hl with
      | [], hc, _ =>
        obtain rfl := Except.ok.inj hc
        exact .array [] (Nat.zero_le _)
      | [_], hc, _ =>
        obtain ⟨p, rfl, hend⟩ := Decoder.storeItems_bool_ok hc
        obtain rfl := Except.ok.inj hend
        exact .array [p] (Nat.le_succ _)
      | [_, _], hc, _ =>
        obtain ⟨p, rfl, hrest⟩ := Decoder.storeItems_bool_ok hc
        obtain ⟨b, rfl, hend⟩ := Decoder.storeItems_bool_ok hrest
        obtain rfl := Except.ok.inj hend
        exact .array [p, b] (Nat.le_refl _)
      | _ :: _ :: _ :: rest, _, hl => exact absurd (by simp [decoded]) hl
  · rintro (_ | ⟨switches, h⟩)
    match switches, h with
    | [], _ => rfl
    | [p], _ => rfl
    | [p, b], _ => rfl

/-! ## Files -/

theorem read_ok_iff {text : String} {v : Value} (hv : Value.read text = .ok v) {config : Config} :
    read text = .ok config ↔ WrittenAs config v := by
  obtain ⟨rest, hr, hb⟩ := Value.read_ok hv
  have hread : read text = Decoder.streamedRecord decoded v :=
    readAll_of_readValue (Reader.Follows.record (record_rel 126)) hr hb
  rw [hread]
  cases v with
  | object ms => exact ofMembers_ok_iff
  | array items => exact streamedItems_ok_iff
  | _ => exact ⟨nofun, nofun⟩

end Config

namespace Surroundings

variable {s : Surroundings}

theorem loadConfig_of_text {path text : String} (h : s.file path = .ok text.toUTF8) :
    (s.host.loadConfig path).run = (Config.read text).mapError (.configInvalid path) := by
  have hfile : s.host.file path = .ok text := text_ok_iff.mpr h
  rw [Host.loadConfig, hfile]
  dsimp only [Id.run, bind]
  cases Config.read text <;> rfl

/-- **A config file is accepted exactly if its value says a config, and what it says can only be
added to.** Each switch is on if the file or the command line says so; with a file that says no
config the command fails, whatever else is asked for. -/
theorem loadConfig_iff_writtenAs {path text : String} {v : Value}
    (hfile : s.file path = .ok text.toUTF8) (hv : Value.read text = .ok v) :
    (∀ config : Config, (s.host.loadConfig path).run = .ok config ↔ config.WrittenAs v) ∧
    (∀ config : Config, config.WrittenAs v →
      (∀ flags : Config, (s.host.loadConfig path).run.map (·.merge flags) =
        .ok ⟨config.prettyPrint || flags.prettyPrint, config.bundle || flags.bundle⟩) ∧
      ∀ arguments a, Request.ofArguments arguments = .ok (.print a) → a.config = some path →
        ∀ source, s.readInput a.input = .ok source →
          (s.execute arguments).withoutLog = .ofResult (Run.ofSource
            ⟨config.prettyPrint || a.pretty, config.bundle || a.bundle⟩ source).result) ∧
    ((∀ config : Config, ¬config.WrittenAs v) → ∃ cause : Json.Error,
      (∀ flags : Config, (s.host.loadConfig path).run.map (·.merge flags) =
        .error (.configInvalid path cause)) ∧
      ∀ arguments a, Request.ofArguments arguments = .ok (.print a) → a.config = some path →
        s.execute arguments = .rejected ("Invalid config " ++ path ++ ": " ++ cause.message)) := by
  have hload : ∀ config : Config,
      (s.host.loadConfig path).run = .ok config ↔ config.WrittenAs v := by
    intro config
    rw [loadConfig_of_text hfile, mapError_ok_iff, Config.read_ok_iff hv]
  refine ⟨hload, fun config hc => ⟨fun flags => ?_, ?_⟩, fun hnone => ?_⟩
  · rw [(hload config).mpr hc]
    rfl
  · intro arguments a ha hpath source hsource
    have hconfig : s.loadConfig a.config = .ok config := by
      rw [hpath, loadConfig_ok_iff]
      exact ⟨text, hfile, (Config.read_ok_iff hv).mpr hc⟩
    exact withoutLog_execute ha hconfig rfl rfl hsource
  · cases hread : Config.read text with
    | ok config => exact absurd ((Config.read_ok_iff hv).mp hread) (hnone config)
    | error cause =>
      refine ⟨cause, fun flags => ?_, fun arguments a ha hpath => execute_of_no_config ha ?_⟩
      · rw [loadConfig_of_text hfile, hread]
        rfl
      · have htext : s.text (some path) = .ok text := text_ok_iff.mpr hfile
        rw [hpath, loadConfig, htext]
        show (Config.read text).mapError _ = _
        rw [hread]
        rfl

/-- A config file with the text of a value, and an empty bundle on the standard input. -/
def ofConfig (v : Value) : Surroundings where
  file path := if path = "c.json" then .ok (String.ofList v.write).toUTF8 else .error .notFound
  stdin := .ok "\x7b\x7d".toUTF8

/-- Among members that do not count, some of a name that is nearly a switch's. -/
def switchedValue : Value :=
  .object [("note", .array [.null]), ("bundle", .bool true), ("pretty_print", .bool true),
    ("note", .object [])]

/-- A switch is no boolean. -/
def nullSwitchValue : Value :=
  .object [("prettyPrint", .null)]

theorem loadConfig_iff_writtenAs_switches :
    ((ofConfig switchedValue).host.loadConfig "c.json").run = .ok ⟨false, true⟩ ∧
      ((ofConfig switchedValue).execute ["-p", "-c", "c.json"]).withoutLog =
        .ofResult (Run.ofSource ⟨true, true⟩ "\x7b\x7d").result ∧
      ∃ cause, (ofConfig nullSwitchValue).execute ["-p", "-c", "c.json"] =
        .rejected ("Invalid config c.json: " ++ cause) := by
  have hrequest : Request.ofArguments ["-p", "-c", "c.json"] =
      .ok (.print { pretty := true, config := some "c.json" }) := by decide +kernel
  have hfile : ∀ v, (ofConfig v).file "c.json" = .ok (String.ofList v.write).toUTF8 :=
    fun _ => rfl
  have hswitched : Value.read (String.ofList switchedValue.write) = .ok switchedValue :=
    Value.read_write (by simp [switchedValue, Value.Plain, Value.PlainItems, Value.PlainMembers])
      (by decide)
  have hnull : Value.read (String.ofList nullSwitchValue.write) = .ok nullSwitchValue :=
    Value.read_write (by simp [nullSwitchValue, Value.Plain, Value.PlainMembers]) (by decide)
  have hwritten : Config.WrittenAs ⟨false, true⟩ switchedValue :=
    .object (.inr ⟨by simp [valuesOf], rfl⟩) (.inl (by simp [valuesOf]))
  have hnone : ∀ config : Config, ¬config.WrittenAs nullSwitchValue := by
    rintro _ (⟨hp | ⟨hp, -⟩, -⟩) <;> simp [valuesOf] at hp
  obtain ⟨hload, hrun, -⟩ := loadConfig_iff_writtenAs (hfile switchedValue) hswitched
  obtain ⟨-, -, hrejected⟩ := loadConfig_iff_writtenAs (hfile nullSwitchValue) hnull
  refine ⟨(hload _).mpr hwritten, ?_, ?_⟩
  · exact (hrun _ hwritten).2 _ _ hrequest rfl _ (readInput_ok_iff.mpr rfl)
  · obtain ⟨cause, -, hexecute⟩ := hrejected hnone
    exact ⟨cause.message, hexecute _ _ hrequest rfl⟩

end Surroundings

end IcuMessage
