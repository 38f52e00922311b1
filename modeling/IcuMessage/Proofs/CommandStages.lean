/-
A command among given files, with a given standard input. Each stage gives a
result or a report (`Surroundings.loadConfig`, `Surroundings.readInput`, a run),
and the first report is all that shows of the command (`Surroundings.execute_eq`).
So a config that does not load hides everything else, and where config and input
are had, it does not matter where from.
-/
import IcuMessage.Main
import IcuMessage.Proofs.RunLog

namespace IcuMessage

/-! ## Texts as bytes -/

theorem Program.decodeUtf8_ok_iff {bytes : ByteArray} {text : String} :
    Program.decodeUtf8 bytes = .ok text ↔ bytes = text.toUTF8 := by
  have hdecoded : String.fromUTF8? bytes = some text ↔ bytes = text.toUTF8 := by
    unfold String.fromUTF8?
    constructor
    · intro h
      split at h
      · cases h
        rfl
      · nomatch h
    · rintro rfl
      rw [String.toUTF8_eq_toByteArray, dif_pos text.isValidUTF8]
      rfl
  rw [← hdecoded, decodeUtf8]
  split <;> simp_all

/-! ## Surroundings -/

/-- The bytes of each file and of the standard input, or why they can not be had. -/
structure Surroundings where
  file : String → Except FileError ByteArray
  stdin : Except FileError ByteArray

namespace Surroundings

variable (s : Surroundings)

/-- The bytes of a file, or of the standard input. -/
def bytes : Option String → Except FileError ByteArray
  | none => s.stdin
  | some path => s.file path

def text (path : Option String) : Except FileError String :=
  (s.bytes path).bind Program.decodeUtf8

def host : Host Id where
  file path := s.text (some path)
  stdin := s.text none

def execute (arguments : List String) : Outcome :=
  CommandLine.execute s.host arguments

/-- The config, or the report of why there is none. -/
def loadConfig : Option String → Except String Config
  | none => .ok {}
  | some path => do
    let text ← (s.text (some path)).mapError fun cause =>
      "Failed to read config " ++ path ++ ": " ++ cause.message
    (Config.read text).mapError fun cause => "Invalid config " ++ path ++ ": " ++ cause.message

/-- The input, or the report of why it can not be read. -/
def readInput (path : Option String) : Except String String :=
  (s.text path).mapError fun cause =>
    "Failed to read " ++ path.getD "stdin" ++ ": " ++ cause.message

end Surroundings

namespace Outcome

/-- Nothing on the standard output, and a report of what went wrong. -/
def rejected (report : String) : Outcome :=
  ⟨1, "", some ("Error: " ++ report ++ "\n"), []⟩

def ofResult : Except Failure String → Outcome
  | .ok text => ⟨0, text ++ "\n", none, []⟩
  | .error failure => rejected failure.message

def withoutLog (o : Outcome) : Outcome :=
  { o with log := [] }

end Outcome

theorem CommandLine.withoutLog_ofRun (verbose : Bool) (run : Run) :
    (CommandLine.ofRun verbose run).withoutLog = .ofResult run.result := by
  rw [ofRun]
  cases run.result <;> rfl

namespace Surroundings

variable {s : Surroundings}

theorem configOf_host (path : Option String) :
    (s.host.configOf path).run.mapError Failure.message = s.loadConfig path := by
  cases path with
  | none => rfl
  | some path =>
    rw [loadConfig, Host.configOf, Host.loadConfig]
    have hfile : s.host.file path = s.text (some path) := rfl
    rw [hfile]
    cases s.text (some path) with
    | error cause => rfl
    | ok text =>
      show _ = (Config.read text).mapError _
      dsimp only [Id.run, bind]
      cases Config.read text <;> rfl

theorem readInput_host (path : Option String) :
    (s.host.readInput path).run.mapError Failure.message = s.readInput path := by
  cases path with
  | none =>
    have hstdin : s.host.stdin = s.text none := rfl
    rw [readInput, Host.readInput, hstdin]
    cases s.text none <;> rfl
  | some path =>
    have hfile : s.host.file path = s.text (some path) := rfl
    rw [readInput, Host.readInput, hfile]
    cases s.text (some path) <;> rfl

theorem execute_eq {arguments : List String} {a : Arguments}
    (ha : Request.ofArguments arguments = .ok (.print a)) :
    s.execute arguments =
      match s.loadConfig a.config with
      | .error report => .rejected report
      | .ok config =>
        match s.readInput a.input with
        | .error report => .rejected report
        | .ok source =>
          CommandLine.ofRun a.verbose (Run.ofSource (config.merge a.switches) source) := by
  have hprint : s.execute arguments = CommandLine.print s.host a := by
    rw [execute, CommandLine.execute, ha]
    rfl
  rw [hprint, ← configOf_host, ← readInput_host, CommandLine.print]
  cases s.host.configOf a.config with
  | error failure => rfl
  | ok config => cases s.host.readInput a.input <;> rfl

theorem text_ok_iff {path : Option String} {source : String} :
    s.text path = .ok source ↔ s.bytes path = .ok source.toUTF8 := by
  rw [text]
  cases s.bytes path with
  | error cause => exact ⟨nofun, nofun⟩
  | ok bytes => rw [Except.ok.injEq]; exact Program.decodeUtf8_ok_iff

theorem readInput_ok_iff {path : Option String} {source : String} :
    s.readInput path = .ok source ↔ s.bytes path = .ok source.toUTF8 := by
  rw [← text_ok_iff, readInput, Json.mapError_ok_iff]

theorem loadConfig_ok_iff {path : String} {config : Config} :
    s.loadConfig (some path) = .ok config ↔
      ∃ text, s.bytes (some path) = .ok (String.toUTF8 text) ∧ Config.read text = .ok config := by
  simp only [loadConfig, Json.bind_ok_iff, Json.mapError_ok_iff, text_ok_iff]

theorem loadConfig_congr {s' : Surroundings} {path : Option String}
    (h : ∀ p ∈ path, s'.file p = s.file p) : s'.loadConfig path = s.loadConfig path := by
  cases path with
  | none => rfl
  | some path => rw [loadConfig, loadConfig, text, text, bytes, bytes, h path rfl]

end Surroundings

theorem Failure.message_messageInvalid (cause : Json.Error) :
    (Failure.messageInvalid cause).message =
      "Failed to print message: malformed message: " ++ cause.message ++ ": " ++ cause.message := by
  have hhead : "Failed to print message: malformed message: " =
      "Failed to print message" ++ ": " ++ "malformed message: " := by decide
  rw [hhead, @String.append_assoc _ "malformed message: "]
  rfl

theorem Outcome.ofResult_message {options : Config} (hb : options.bundle = false)
    (source : String) : ofResult (Run.ofSource options source).result =
      match Message.read source with
      | .ok message => ⟨0, Message.text options.layout message ++ "\n", none, []⟩
      | .error cause => rejected ("Failed to print message: malformed message: " ++
          cause.message ++ ": " ++ cause.message) := by
  rw [Run.ofSource_message hb, Run.ofMessage]
  cases Message.read source with
  | ok message => rfl
  | error cause => exact congrArg rejected (Failure.message_messageInvalid cause)

/-! ## Outcomes -/

namespace Surroundings

variable {s : Surroundings}

section

variable {arguments : List String} {a : Arguments}
  (ha : Request.ofArguments arguments = .ok (.print a))
include ha

theorem execute_of_no_config {report : String} (h : s.loadConfig a.config = .error report) :
    s.execute arguments = .rejected report := by
  rw [execute_eq ha, h]

variable {config : Config} (hc : s.loadConfig a.config = .ok config)
include hc

theorem execute_of_no_input {report : String} (h : s.readInput a.input = .error report) :
    s.execute arguments = .rejected report := by
  simp only [execute_eq ha, hc, h]

/-- With a config and an input, the outcome is that of the run. -/
theorem withoutLog_execute {options : Config}
    (hpretty : options.prettyPrint = (config.prettyPrint || a.pretty))
    (hbundle : options.bundle = (config.bundle || a.bundle)) {source : String}
    (h : s.readInput a.input = .ok source) :
    (s.execute arguments).withoutLog = .ofResult (Run.ofSource options source).result := by
  have hoptions : config.merge a.switches = options := by
    cases options
    cases hpretty
    cases hbundle
    rfl
  simp only [execute_eq ha, hc, h, hoptions]
  exact CommandLine.withoutLog_ofRun _ _

end

/-- **The first stage that fails is all that shows of a command.** A config that is not loaded hides
the input, the switches and all other files; after it an input that can not be read hides the run.
Of a run only the source counts and what is switched on, not where either comes from. -/
theorem execute_stages {arguments : List String} {a : Arguments}
    (ha : Request.ofArguments arguments = .ok (.print a)) (s : Surroundings) :
    (∀ report, s.loadConfig a.config = .error report →
      s.execute arguments = .rejected report ∧
      ∀ (s' : Surroundings) (arguments' : List String) (a' : Arguments),
        Request.ofArguments arguments' = .ok (.print a') → a'.config = a.config →
        (∀ path ∈ a.config, s'.file path = s.file path) →
          s'.execute arguments' = .rejected report) ∧
    ∀ config, s.loadConfig a.config = .ok config →
      (∀ report, s.readInput a.input = .error report → s.execute arguments = .rejected report) ∧
      ∀ source, s.readInput a.input = .ok source → ∀ options : Config,
        options.prettyPrint = (config.prettyPrint || a.pretty) →
        options.bundle = (config.bundle || a.bundle) →
          (s.execute arguments).withoutLog = .ofResult (Run.ofSource options source).result ∧
          (options.bundle = false → (s.execute arguments).withoutLog =
            match Message.read source with
            | .ok message => ⟨0, Message.text options.layout message ++ "\n", none, []⟩
            | .error cause => .rejected ("Failed to print message: malformed message: " ++
                cause.message ++ ": " ++ cause.message)) ∧
          ∀ (s' : Surroundings) (arguments' : List String) (a' : Arguments) (config' : Config),
            Request.ofArguments arguments' = .ok (.print a') →
            s'.loadConfig a'.config = .ok config' →
            options.prettyPrint = (config'.prettyPrint || a'.pretty) →
            options.bundle = (config'.bundle || a'.bundle) →
            s'.bytes a'.input = s.bytes a.input →
              (s'.execute arguments').withoutLog = (s.execute arguments).withoutLog := by
  refine ⟨fun report h => ⟨execute_of_no_config ha h, ?_⟩, fun config hc => ⟨?_, ?_⟩⟩
  · intro s' arguments' a' ha' hconfig hfile
    refine execute_of_no_config ha' ?_
    rw [hconfig, loadConfig_congr hfile, h]
  · exact fun report h => execute_of_no_input ha hc h
  · intro source hsource options hpretty hbundle
    have hrun := withoutLog_execute ha hc hpretty hbundle hsource
    refine ⟨hrun, fun hb => ?_, ?_⟩
    · rw [hrun, Outcome.ofResult_message hb]
    · intro s' arguments' a' config' ha' hc' hpretty' hbundle' hbytes
      have hsource' : s'.readInput a'.input = .ok source := by
        rw [readInput_ok_iff, hbytes, ← readInput_ok_iff, hsource]
      rw [hrun, withoutLog_execute ha' hc' hpretty' hbundle' hsource']

/-- A message on the standard input, and nothing else. -/
def ofInput (message : Message) : Surroundings where
  file _ := .error .notFound
  stdin := .ok message.write.toUTF8

/-- A config file and an input file of these bytes, and no standard input. -/
def ofBytes (config input : ByteArray) : Surroundings where
  file path :=
    if path = "c.json" then .ok config
    else if path = "m.json" then .ok input
    else .error .notFound
  stdin := .error .isDirectory

/-- A message in a file, and a config in another that asks for the pretty layout. -/
def ofFiles (message : Message) : Surroundings :=
  ofBytes "\x7b\"prettyPrint\":true\x7d".toUTF8 message.write.toUTF8

/-- The files give the same as the switch and the standard input. Of a config file that is missing
or cut off only this is reported, and with a config, that the input is no text. -/
theorem execute_stages_nested :
    ((ofFiles Run.nestedMessage).execute ["-c", "c.json", "m.json"]).withoutLog =
        ⟨0, Message.text .pretty Run.nestedMessage ++ "\n", none, []⟩ ∧
      ((ofInput Run.nestedMessage).execute ["-p"]).withoutLog =
        ((ofFiles Run.nestedMessage).execute ["-c", "c.json", "m.json"]).withoutLog ∧
      (ofInput Run.nestedMessage).execute ["-c", "c.json", "m.json"] =
        .rejected "Failed to read config c.json: No such file or directory (os error 2)" ∧
      (ofBytes "\x7b".toUTF8 ⟨#[0xff]⟩).execute ["-c", "c.json", "m.json"] =
        .rejected "Invalid config c.json: EOF while parsing an object" ∧
      (ofBytes "\x7b\x7d".toUTF8 ⟨#[0xff]⟩).execute ["-c", "c.json", "m.json"] =
        .rejected "Failed to read m.json: stream did not contain valid UTF-8" := by
  have hread : Message.read Run.nestedMessage.write = .ok Run.nestedMessage := by
    rw [Message.read_write_eq, if_pos (Run.nestedMessage.depth_le_maxNesting_iff.mpr (by decide))]
  have hfiles : Request.ofArguments ["-c", "c.json", "m.json"] =
      .ok (.print { config := some "c.json", input := some "m.json" }) := by decide +kernel
  have hswitch : Request.ofArguments ["-p"] = .ok (.print { pretty := true }) := by decide +kernel
  have hconfig :
      (ofFiles Run.nestedMessage).loadConfig (some "c.json") = .ok ⟨true, false⟩ :=
    loadConfig_ok_iff.mpr ⟨"\x7b\"prettyPrint\":true\x7d", rfl, by rfl⟩
  obtain ⟨-, hstages⟩ := execute_stages hfiles (ofFiles Run.nestedMessage)
  obtain ⟨-, hmessage, hsame⟩ := (hstages ⟨true, false⟩ hconfig).2 Run.nestedMessage.write
    (readInput_ok_iff.mpr rfl) ⟨true, false⟩ rfl rfl
  refine ⟨?_, ?_, ?_, ?_, ?_⟩
  · rw [hmessage rfl, hread]
    rfl
  · exact hsame _ _ _ {} hswitch rfl rfl rfl rfl
  · obtain ⟨hnone, -⟩ := execute_stages hfiles (ofInput Run.nestedMessage)
    exact (hnone _ rfl).1
  · obtain ⟨hnone, -⟩ := execute_stages hfiles (ofBytes "\x7b".toUTF8 ⟨#[0xff]⟩)
    exact (hnone _ rfl).1
  · obtain ⟨-, hconfigured⟩ := execute_stages hfiles (ofBytes "\x7b\x7d".toUTF8 ⟨#[0xff]⟩)
    have hempty : (ofBytes "\x7b\x7d".toUTF8 ⟨#[0xff]⟩).loadConfig (some "c.json") = .ok {} :=
      loadConfig_ok_iff.mpr ⟨"\x7b\x7d", rfl, rfl⟩
    exact (hconfigured {} hempty).1 _ rfl

end Surroundings

end IcuMessage
