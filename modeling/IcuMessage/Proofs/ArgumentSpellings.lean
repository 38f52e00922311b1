/-
The spellings of a command. What arguments say comes down to settings
(`Arguments.settings`), and taking a part of a command line is to set what the
part says (`Arguments.takeAll_part`). Settings may come in any order, but each
kind of them only once (`Arguments.foldlM_set_ok_iff`), so all command lines
that say the same are taken alike, and those that say a thing twice are refused.
-/
import Mathlib.Data.List.Nodup
import IcuMessage.Proofs.CommandStages

namespace IcuMessage

/-! ## Settings -/

/-- A switch that goes without a value and gives no answer of its own. -/
inductive Flag where
  | pretty
  | bundle
  | verbose
  deriving DecidableEq, Repr

namespace Flag

def switch : Flag → Switch
  | pretty => .pretty
  | bundle => .bundle
  | verbose => .verbose

def short (flag : Flag) : Char :=
  flag.switch.short

end Flag

/-- One thing that arguments can say. -/
inductive Setting where
  | flag (flag : Flag)
  | config (path : String)
  | input (path : String)
  deriving DecidableEq, Repr

namespace Setting

/-- What can be said only once. -/
inductive Kind where
  | flag (flag : Flag)
  | config
  | input
  deriving DecidableEq, Repr

def Kind.all : List Kind :=
  [flag .pretty, flag .bundle, flag .verbose, config, input]

theorem Kind.mem_all (kind : Kind) : kind ∈ all := by
  rcases kind with ⟨_ | _ | _⟩ | _ | _ <;> decide

def kind : Setting → Kind
  | flag f => .flag f
  | config _ => .config
  | input _ => .input

/-- A path that is not taken for a switch; a config path may also stand right behind its switch. -/
def Plain : Setting → Prop
  | flag _ => True
  | config path =>
    path ≠ "" ∧ path.toList.head? ≠ some '-' ∧ path.toList.head? ≠ some '='
  | input path => path.toList.head? ≠ some '-'

instance : DecidablePred Plain
  | flag _ => isTrue trivial
  | config _ => inferInstanceAs (Decidable (_ ∧ _))
  | input _ => inferInstanceAs (Decidable (_ ≠ _))

/-- The error if something of the kind has been said before. -/
def refusal : Setting → UsageError
  | flag f => .repeated ("--" ++ f.switch.long)
  | config _ => .repeated ("--" ++ Switch.config.long)
  | input path => .unexpected path

end Setting

namespace Arguments

open Setting (Kind)

def has (a : Arguments) : Flag → Bool
  | .pretty => a.pretty
  | .bundle => a.bundle
  | .verbose => a.verbose

/-- What has been said of a kind. -/
def said (a : Arguments) : Kind → Option Setting
  | .flag f => if a.has f then some (.flag f) else none
  | .config => a.config.map .config
  | .input => a.input.map .input

def settings (a : Arguments) : List Setting :=
  Kind.all.filterMap a.said

def put (a : Arguments) : Setting → Arguments
  | .flag .pretty => { a with pretty := true }
  | .flag .bundle => { a with bundle := true }
  | .flag .verbose => { a with verbose := true }
  | .config path => { a with config := some path }
  | .input path => { a with input := some path }

def set (a : Arguments) (st : Setting) : Except UsageError Arguments :=
  if (a.said st.kind).isSome then .error st.refusal else .ok (a.put st)

section

variable {a b : Arguments} {st : Setting} {kind : Kind}

theorem kind_of_said (h : a.said kind = some st) : st.kind = kind := by
  cases kind with
  | flag f =>
    obtain ⟨-, rfl⟩ : a.has f = true ∧ Setting.flag f = st := by simpa [said] using h
    rfl
  | config | input =>
    obtain ⟨path, -, rfl⟩ := Option.map_eq_some_iff.mp h
    rfl

theorem said_put : (a.put st).said kind = if kind = st.kind then some st else a.said kind := by
  rcases st with ⟨_ | _ | _⟩ | _ | _ <;> rcases kind with ⟨_ | _ | _⟩ | _ | _ <;> rfl

theorem ext_said {a b : Arguments} (h : ∀ kind, a.said kind = b.said kind) : a = b := by
  have hp := h (.flag .pretty)
  have hb := h (.flag .bundle)
  have hv := h (.flag .verbose)
  have hc := h .config
  have hi := h .input
  obtain ⟨pretty, bundle, verbose, config, input⟩ := a
  obtain ⟨pretty', bundle', verbose', config', input'⟩ := b
  simp only [said, has] at hp hb hv hc hi
  grind [Option.map_inj_right]

theorem mem_settings : st ∈ a.settings ↔ a.said st.kind = some st := by
  rw [settings, List.mem_filterMap]
  constructor
  · rintro ⟨kind, -, h⟩
    rwa [kind_of_said h]
  · exact fun h => ⟨st.kind, st.kind.mem_all, h⟩

theorem kinds_settings (a : Arguments) :
    a.settings.map Setting.kind = Kind.all.filter fun kind => (a.said kind).isSome := by
  rw [settings]
  induction Kind.all with
  | nil => rfl
  | cons kind kinds ih =>
    cases h : a.said kind with
    | none => simp [h, ih]
    | some st => simp [h, ih, kind_of_said h]

theorem nodup_kinds (a : Arguments) : (a.settings.map Setting.kind).Nodup := by
  rw [kinds_settings]
  exact List.filter_sublist.nodup (by decide)

theorem nodup_settings (a : Arguments) : a.settings.Nodup :=
  .of_map _ a.nodup_kinds

theorem eq_of_perm (h : a.settings.Perm b.settings) : a = b := by
  refine ext_said fun kind => Option.ext fun st => ?_
  constructor
  · intro hst
    obtain rfl := kind_of_said hst
    exact mem_settings.mp (h.mem_iff.mp (mem_settings.mpr hst))
  · intro hst
    obtain rfl := kind_of_said hst
    exact mem_settings.mp (h.mem_iff.mpr (mem_settings.mpr hst))

theorem settings_put (h : a.said st.kind = none) :
    (a.put st).settings.Perm (st :: a.settings) := by
  have hnew : st ∉ a.settings := fun hst => by
    nomatch h.symm.trans (mem_settings.mp hst)
  refine (List.perm_ext_iff_of_nodup (nodup_settings _)
    (List.nodup_cons.mpr ⟨hnew, a.nodup_settings⟩)).mpr fun other => ?_
  rw [mem_settings, said_put, List.mem_cons, mem_settings]
  by_cases hk : other.kind = st.kind
  · rw [if_pos hk, hk, h]
    simp [eq_comm]
  · have hne : other ≠ st := fun heq => hk (heq ▸ rfl)
    simp [hk, hne]

/-! ### One after another -/

theorem set_ok_iff : a.set st = .ok b ↔ a.said st.kind = none ∧ a.put st = b := by
  rw [set]
  cases a.said st.kind <;> simp

theorem foldlM_set_ok_iff {sts : List Setting} :
    sts.foldlM set a = .ok b ↔ b.settings.Perm (sts ++ a.settings) := by
  induction sts generalizing a with
  | nil =>
    constructor
    · intro h
      obtain rfl : a = b := Except.ok.inj h
      exact .refl _
    · intro h
      rw [eq_of_perm h]
      rfl
  | cons st sts ih =>
    have hmoved : a.said st.kind = none →
        (sts ++ (a.put st).settings).Perm (st :: sts ++ a.settings) := fun hnone =>
      ((settings_put hnone).append_left sts).trans List.perm_middle
    rw [List.foldlM_cons, Json.bind_ok_iff]
    constructor
    · rintro ⟨c, hc, h⟩
      obtain ⟨hnone, rfl⟩ := set_ok_iff.mp hc
      exact (ih.mp h).trans (hmoved hnone)
    · intro h
      -- In the end there is one setting of each kind, so this kind has none to begin with.
      have hnone : a.said st.kind = none := by
        have hn := (h.map Setting.kind).nodup b.nodup_kinds
        rw [List.cons_append, List.map_cons, List.map_append] at hn
        refine Option.eq_none_iff_forall_ne_some.mpr fun other hother => ?_
        refine (List.nodup_cons.mp hn).1 (List.mem_append_right _ ?_)
        rw [← kind_of_said hother]
        refine List.mem_map_of_mem (mem_settings.mpr ?_)
        rwa [kind_of_said hother]
      exact ⟨a.put st, set_ok_iff.mpr ⟨hnone, rfl⟩, ih.mpr (h.trans (hmoved hnone).symm)⟩

theorem settings_default : ({} : Arguments).settings = [] :=
  rfl

theorem foldlM_set_of_perm {sts : List Setting} (h : sts.Perm a.settings) :
    sts.foldlM set {} = .ok a :=
  foldlM_set_ok_iff.mpr (by rw [settings_default, List.append_nil]; exact h.symm)

theorem foldlM_set_of_not_nodup {sts : List Setting} (h : ¬(sts.map Setting.kind).Nodup) :
    ∃ e, sts.foldlM set {} = .error e := by
  cases hs : sts.foldlM set {} with
  | error e => exact ⟨e, rfl⟩
  | ok a =>
    have hperm := foldlM_set_ok_iff.mp hs
    rw [settings_default, List.append_nil] at hperm
    exact absurd ((hperm.map Setting.kind).nodup a.nodup_kinds) h

/-! ### As they are set -/

theorem setConfig_eq (path : String) : a.setConfig path.toList = a.set (.config path) := by
  rw [setConfig, set, String.ofList_toList]
  cases h : a.config <;> simp [said, h, Setting.kind, Setting.refusal, put]

theorem setInput_eq (path : String) : a.setInput path = a.set (.input path) := by
  rw [setInput, set]
  cases h : a.input <;> simp [said, h, Setting.kind, Setting.refusal, put]

theorem setSwitch_flag (flag : Flag) :
    a.setSwitch flag.switch = (a.set (.flag flag)).map .more := by
  have honce : a.setSwitch flag.switch =
      setOnce flag.switch (a.has flag) (a.put (.flag flag)) := by
    cases flag <;> rfl
  rw [honce, setOnce, set]
  cases h : a.has flag <;> simp [said, h, Setting.kind, Setting.refusal]

end

end Arguments

/-! ## Parts of a command line -/

/-- The config switch, and the flags gathered with it. -/
inductive ConfigSwitch where
  | long
  | short (flags : List Flag)
  deriving DecidableEq, Repr

namespace ConfigSwitch

def flags : ConfigSwitch → List Flag
  | long => []
  | short flags => flags

def text : ConfigSwitch → List Char
  | long => '-' :: '-' :: Switch.config.long.toList
  | short flags => '-' :: (flags.map Flag.short ++ ['c'])

end ConfigSwitch

/-- What can be moved about as a whole: one argument, or a config switch and the path after it. -/
inductive Part where
  | long (flag : Flag)
  | short (flag : Flag) (more : List Flag)
  | config (switch : ConfigSwitch) (path : String)
  | configEquals (switch : ConfigSwitch) (path : String)
  | configAttached (flags : List Flag) (path : String)
  | input (path : String)
  deriving DecidableEq, Repr

namespace Part

def arguments : Part → List String
  | long flag => [String.ofList ('-' :: '-' :: flag.switch.long.toList)]
  | short flag more => [String.ofList ('-' :: (flag :: more).map Flag.short)]
  | config switch path => [String.ofList switch.text, path]
  | configEquals switch path => [String.ofList (switch.text ++ '=' :: path.toList)]
  | configAttached flags path => [String.ofList ((ConfigSwitch.short flags).text ++ path.toList)]
  | input path => [path]

def settings : Part → List Setting
  | long flag => [.flag flag]
  | short flag more => (flag :: more).map .flag
  | config switch path | configEquals switch path => switch.flags.map .flag ++ [.config path]
  | configAttached flags path => flags.map .flag ++ [.config path]
  | input path => [.input path]

def isInput : Part → Bool
  | input _ => true
  | _ => false

/-- Something is said more than once, in whatever spellings. -/
def SaysTwice (parts : List Part) : Prop :=
  ¬((parts.flatMap settings).map Setting.kind).Nodup

instance : DecidablePred SaysTwice :=
  fun _ => inferInstanceAs (Decidable (¬_))

theorem arguments_switch {part : Part} (h : part.isInput = false) :
    ∃ c more rest, part.arguments = String.ofList ('-' :: c :: more) :: rest := by
  cases part with
  | long flag => exact ⟨_, _, _, rfl⟩
  | short flag more => exact ⟨_, _, _, rfl⟩
  | config switch path | configEquals switch path =>
    rcases switch with _ | ⟨_ | ⟨flag, flags⟩⟩ <;> exact ⟨_, _, _, rfl⟩
  | configAttached flags path => cases flags <;> exact ⟨_, _, _, rfl⟩
  | input path => nomatch h

/-- A part that is begun is there as a whole, or cut off before its path. -/
theorem arguments_begun {part : Part} {first : String} {front back rest : List String}
    (h : first :: front ++ back = part.arguments ++ rest) :
    (∃ front', first :: front = part.arguments ++ front' ∧ front' ++ back = rest) ∨
      ∃ switch path, part = config switch path ∧ first :: front = [String.ofList switch.text] := by
  cases part with
  | config switch path =>
    obtain ⟨rfl, htail⟩ := List.cons.inj h
    cases front with
    | nil => exact .inr ⟨switch, path, rfl, rfl⟩
    | cons second front =>
      obtain ⟨rfl, hrest⟩ := List.cons.inj htail
      exact .inl ⟨front, rfl, hrest⟩
  | _ =>
    obtain ⟨rfl, hrest⟩ := List.cons.inj h
    exact .inl ⟨front, rfl, hrest⟩

/-- A cut through parts is between two of them, or before the path of a config switch. -/
theorem arguments_split {parts : List Part} {front back : List String}
    (h : front ++ back = parts.flatMap arguments) :
    (∃ before after, parts = before ++ after ∧ front = before.flatMap arguments ∧
      back = after.flatMap arguments) ∨
    ∃ before switch path after, parts = before ++ config switch path :: after ∧
      front = before.flatMap arguments ++ [String.ofList switch.text] := by
  induction parts generalizing front with
  | nil =>
    obtain ⟨rfl, rfl⟩ := List.append_eq_nil_iff.mp h
    exact .inl ⟨[], [], rfl, rfl, rfl⟩
  | cons part parts ih =>
    cases front with
    | nil => exact .inl ⟨[], part :: parts, rfl, rfl, h⟩
    | cons first front =>
      obtain ⟨front', hfront, h⟩ | ⟨switch, path, rfl, hfront⟩ := arguments_begun h
      · rw [hfront]
        obtain ⟨before, after, rfl, rfl, rfl⟩ | ⟨before, switch, path, after, rfl, rfl⟩ := ih h
        · exact .inl ⟨part :: before, after, rfl, rfl, rfl⟩
        · exact .inr ⟨part :: before, switch, path, after, rfl, by simp⟩
      · exact .inr ⟨[], switch, path, parts, rfl, hfront⟩

end Part

namespace Arguments

variable {a : Arguments}

/-! ## Taking arguments -/

theorem takeLong_flag (flag : Flag) : a.takeLong flag.switch.long.toList =
    (a.set (.flag flag)).map fun a => .done (.more a) := by
  have htake : a.takeLong flag.switch.long.toList = (a.setSwitch flag.switch).map .done := by
    cases flag <;> rfl
  rw [htake, setSwitch_flag]
  cases a.set (.flag flag) <;> rfl

theorem takeLong_config : a.takeLong Switch.config.long.toList = .ok (.configDue a) :=
  rfl

theorem takeLong_configEquals (path : String) :
    a.takeLong (Switch.config.long.toList ++ '=' :: path.toList) =
      (a.set (.config path)).map fun a => .done (.more a) := by
  rw [← setConfig_eq]
  rfl

theorem takeShort_flag (flag : Flag) (rest : List Char) :
    a.takeShort (flag.short :: rest) = (a.set (.flag flag) >>= fun a => a.takeShort rest) := by
  obtain ⟨next, hmore, htake⟩ : ∃ next, (∀ a, next (.more a) = a.takeShort rest) ∧
      a.takeShort (flag.short :: rest) = (a.setSwitch flag.switch >>= next) := by
    cases flag <;> exact ⟨_, by intro a; rfl, rfl⟩
  rw [htake, setSwitch_flag]
  cases a.set (.flag flag) with
  | ok a => exact hmore a
  | error e => rfl

theorem takeShort_flags (flags : List Flag) (rest : List Char) :
    a.takeShort (flags.map Flag.short ++ rest) =
      ((flags.map Setting.flag).foldlM set a >>= fun a => a.takeShort rest) := by
  induction flags generalizing a with
  | nil => rfl
  | cons flag flags ih =>
    rw [List.map_cons, List.cons_append, takeShort_flag, List.map_cons, List.foldlM_cons,
      bind_assoc]
    exact bind_congr fun a => ih

theorem takeShort_configAttached {attached : List Char} (h : attached ≠ []) :
    a.takeShort ('c' :: attached) =
      (a.setConfig (attachedPath attached)).map fun a => .done (.more a) := by
  obtain ⟨c, rest, rfl⟩ := List.exists_cons_of_ne_nil h
  rfl

/-- What is done after an argument. -/
def Taken.follow (rest : List String) : Taken → Except UsageError Request
  | .configDue a => a.takeAll true rest
  | .done (.more a) => a.takeAll false rest
  | .done (.settled request) => .ok request

theorem follow_more (x : Except UsageError Arguments) (rest : List String) :
    ((x.map fun a => .done (.more a)) >>= Taken.follow rest) =
      (x >>= fun a => a.takeAll false rest) := by
  cases x <;> rfl

theorem takeAll_long {name : List Char} (h : name ≠ []) (rest : List String) :
    a.takeAll false (String.ofList ('-' :: '-' :: name) :: rest) =
      (a.takeLong name >>= Taken.follow rest) := by
  have hne : String.ofList ('-' :: '-' :: name) ≠ "--" := fun heq => by
    have hlist := congrArg String.toList heq
    simp [h] at hlist
  rw [takeAll, if_neg (by simp), if_neg hne, takeOne, String.toList_ofList]
  rfl

theorem takeAll_short {switches : List Char} (h : ∃ c more, switches = c :: more ∧ c ≠ '-')
    (rest : List String) : a.takeAll false (String.ofList ('-' :: switches) :: rest) =
      (a.takeShort switches >>= Taken.follow rest) := by
  obtain ⟨c, more, rfl, hc⟩ := h
  have hne : String.ofList ('-' :: c :: more) ≠ "--" := fun heq => by
    have hlist := congrArg String.toList heq
    simp [hc] at hlist
  rw [takeAll, if_neg (by simp), if_neg hne, takeOne, String.toList_ofList]
  split
  · rename_i heq
    simp [hc] at heq
  · rename_i heq
    obtain ⟨rfl, rfl⟩ : c = _ ∧ more = _ := by simpa using heq
    rfl
  · rename_i hshort
    exact absurd rfl (hshort c more)

theorem takeAll_flags {flags : List Flag} {tail : List Char}
    (h : flags ≠ [] ∨ ∃ more, tail = 'c' :: more) (rest : List String) :
    a.takeAll false (String.ofList ('-' :: (flags.map Flag.short ++ tail)) :: rest) =
      ((flags.map Setting.flag).foldlM set a >>= fun a =>
        a.takeShort tail >>= Taken.follow rest) := by
  have hhead : ∃ c more, flags.map Flag.short ++ tail = c :: more ∧ c ≠ '-' := by
    cases flags with
    | nil =>
      obtain ⟨more, rfl⟩ := h.resolve_left fun h => h rfl
      exact ⟨'c', more, rfl, by decide⟩
    | cons flag flags => exact ⟨flag.short, _, rfl, by cases flag <;> decide⟩
  rw [takeAll_short hhead, takeShort_flags, bind_assoc]

theorem takeAll_attached {flags : List Flag} {path : String} (attached : List Char)
    (h : attached ≠ []) (hp : attachedPath attached = path.toList) (rest : List String) :
    a.takeAll false (String.ofList ('-' :: (flags.map Flag.short ++ 'c' :: attached)) :: rest) =
      ((flags.map Setting.flag ++ [Setting.config path]).foldlM set a >>= fun a =>
        a.takeAll false rest) := by
  rw [takeAll_flags (.inr ⟨attached, rfl⟩), List.foldlM_append, bind_assoc]
  refine bind_congr fun a => ?_
  rw [takeShort_configAttached h, hp, setConfig_eq, follow_more, List.foldlM_cons, bind_assoc]
  rfl

theorem takeAll_configSwitch (switch : ConfigSwitch) (rest : List String) :
    a.takeAll false (String.ofList switch.text :: rest) =
      ((switch.flags.map Setting.flag).foldlM set a >>= fun a => a.takeAll true rest) := by
  cases switch with
  | long =>
    rw [ConfigSwitch.text, takeAll_long (by decide), takeLong_config]
    rfl
  | short flags =>
    rw [ConfigSwitch.text, takeAll_flags (.inr ⟨[], rfl⟩)]
    rfl

theorem takeAll_due {path : String} (h : path.toList.head? ≠ some '-') (rest : List String) :
    a.takeAll true (path :: rest) = (a.set (.config path) >>= fun a => a.takeAll false rest) := by
  have hpath : isPath path = true := by
    rw [isPath]
    split
    · rename_i heq
      simp [heq] at h
    · rfl
  rw [takeAll, if_pos rfl, if_pos hpath, setConfig_eq]

/-- Where a path is due, no switch is taken for it. -/
theorem takeAll_due_switch {part : Part} (h : part.isInput = false) (rest : List String) :
    ∃ e, ∀ a : Arguments, a.takeAll true (part.arguments ++ rest) = .error e := by
  obtain ⟨c, more, arguments, harguments⟩ := part.arguments_switch h
  have hpath : isPath (String.ofList ('-' :: c :: more)) = false := by
    rw [isPath, String.toList_ofList]
    rfl
  refine ⟨.missingValue ("--" ++ Switch.config.long), fun a => ?_⟩
  rw [harguments, List.cons_append, takeAll, if_pos rfl, hpath]
  rfl

theorem takeAll_input {path : String} (h : path.toList.head? ≠ some '-') (rest : List String) :
    a.takeAll false (path :: rest) = (a.set (.input path) >>= fun a => a.takeAll false rest) := by
  have hne : path ≠ "--" := fun heq => by simp [heq] at h
  rw [takeAll, if_neg (by simp), if_neg hne, takeOne, ← setInput_eq]
  split
  · rename_i heq
    simp [heq] at h
  · rename_i heq
    simp [heq] at h
  · cases a.setInput path <;> rfl

theorem takeAll_dashes (path : Option String) : a.takeAll false ("--" :: path.toList) =
    ((path.toList.map Setting.input).foldlM set a).map .print := by
  rw [takeAll, if_neg (by simp), if_pos rfl]
  cases path with
  | none => rfl
  | some path =>
    show (a.takePositionals [path] >>= _) = Except.map _ ([Setting.input path].foldlM set a)
    rw [takePositionals, setInput_eq, List.foldlM_cons]
    cases a.set (.input path) <;> rfl

/-! ### Parts -/

/-- To take a part is to set what it says, from left to right. -/
theorem takeAll_part {part : Part} (h : ∀ st ∈ part.settings, st.Plain) (rest : List String) :
    a.takeAll false (part.arguments ++ rest) =
      (part.settings.foldlM set a >>= fun a => a.takeAll false rest) := by
  cases part with
  | long flag =>
    show a.takeAll false (_ :: rest) = _
    rw [takeAll_long (by cases flag <;> decide), takeLong_flag, follow_more, Part.settings,
      List.foldlM_cons, bind_assoc]
    rfl
  | short flag more =>
    show a.takeAll false (_ :: rest) = _
    rw [← List.append_nil ((flag :: more).map Flag.short), takeAll_flags (.inl (by simp))]
    rfl
  | config switch path =>
    obtain ⟨-, hdash, -⟩ : Setting.Plain (.config path) := h _ (by simp [Part.settings])
    show a.takeAll false (_ :: path :: rest) = _
    rw [takeAll_configSwitch, Part.settings, List.foldlM_append, bind_assoc]
    refine bind_congr fun a => ?_
    rw [takeAll_due hdash, List.foldlM_cons, bind_assoc]
    rfl
  | configEquals switch path =>
    show a.takeAll false (_ :: rest) = _
    cases switch with
    | long =>
      show a.takeAll false (String.ofList ('-' :: '-' :: (_ ++ _)) :: rest) = _
      rw [takeAll_long (by simp), takeLong_configEquals, follow_more, Part.settings]
      simp [ConfigSwitch.flags]
    | short flags =>
      rw [ConfigSwitch.text, List.cons_append, List.append_assoc, List.singleton_append]
      exact takeAll_attached ('=' :: path.toList) (by simp) rfl rest
  | configAttached flags path =>
    obtain ⟨hempty, -, hequals⟩ : Setting.Plain (.config path) := h _ (by simp [Part.settings])
    show a.takeAll false (_ :: rest) = _
    rw [ConfigSwitch.text, List.cons_append, List.append_assoc, List.singleton_append]
    refine takeAll_attached path.toList (by simpa using hempty) ?_ rest
    rw [attachedPath]
    rintro rest heq
    exact absurd (by rw [heq]; rfl) hequals
  | input path =>
    have hpath : path.toList.head? ≠ some '-' := h (.input path) (by simp [Part.settings])
    show a.takeAll false (path :: rest) = _
    rw [takeAll_input hpath, Part.settings, List.foldlM_cons, bind_assoc]
    rfl

theorem takeAll_parts {parts : List Part} (h : ∀ st ∈ parts.flatMap Part.settings, st.Plain)
    (rest : List String) : a.takeAll false (parts.flatMap Part.arguments ++ rest) =
      ((parts.flatMap Part.settings).foldlM set a >>= fun a => a.takeAll false rest) := by
  induction parts generalizing a with
  | nil => rfl
  | cons part parts ih =>
    obtain ⟨hpart, hparts⟩ := List.forall_mem_append.mp h
    rw [List.flatMap_cons, List.flatMap_cons, List.append_assoc, takeAll_part hpart,
      List.foldlM_append, bind_assoc]
    exact bind_congr fun a => ih hparts

/-! ## Whole command lines -/

/-- The argument lists that say what `a` says, each thing once: parts in any order, where the input
may also stand at the end after `--`. -/
inductive WrittenAs (a : Arguments) : List String → Prop
  | parts (parts : List Part) (h : (parts.flatMap Part.settings).Perm a.settings) :
      WrittenAs a (parts.flatMap Part.arguments)
  | inputLast (parts : List Part) (path : Option String)
      (h : (parts.flatMap Part.settings ++ path.toList.map Setting.input).Perm a.settings) :
      WrittenAs a (parts.flatMap Part.arguments ++ "--" :: path.toList)

theorem ofArguments_of_writtenAs (hp : ∀ st ∈ a.settings, st.Plain) {arguments : List String}
    (h : a.WrittenAs arguments) : Request.ofArguments arguments = .ok (.print a) := by
  cases h with
  | parts parts h =>
    have hparts : ∀ st ∈ parts.flatMap Part.settings, st.Plain := fun st hst =>
      hp st (h.mem_iff.mp hst)
    rw [Request.ofArguments, ← List.append_nil (parts.flatMap _), takeAll_parts hparts,
      foldlM_set_of_perm h]
    rfl
  | inputLast parts path h =>
    have hparts : ∀ st ∈ parts.flatMap Part.settings, st.Plain := fun st hst =>
      hp st (h.mem_iff.mp (List.mem_append_left _ hst))
    have hset := foldlM_set_of_perm h
    rw [List.foldlM_append] at hset
    obtain ⟨b, hb, hlast⟩ := Json.bind_ok_iff.mp hset
    rw [Request.ofArguments, takeAll_parts hparts, hb, Json.ok_bind, takeAll_dashes, hlast]
    rfl

theorem exists_error_bind {ε α β : Type} {x : Except ε α} {f : α → Except ε β}
    (h : ∀ a, ∃ e, f a = .error e) : ∃ e, (x >>= f) = .error e := by
  cases x with
  | error e => exact ⟨e, rfl⟩
  | ok a => exact h a

/-- Among the other parts the extra one makes something be said twice; where it parts a switch from
its path, the path is missed. -/
theorem refused_of_saysTwice {parts : List Part} {extra : Part} {front back rest : List String}
    (hp : ∀ st ∈ (extra :: parts).flatMap Part.settings, st.Plain) (hextra : extra.isInput = false)
    (htwice : Part.SaysTwice (extra :: parts))
    (hsplit : front ++ back = parts.flatMap Part.arguments) :
    ∃ e, Request.ofArguments (front ++ extra.arguments ++ back ++ rest) = .error e := by
  obtain ⟨before, after, rfl, rfl, rfl⟩ | ⟨before, switch, path, after, rfl, rfl⟩ :=
    Part.arguments_split hsplit
  · have hperm : ((before ++ extra :: after).flatMap Part.settings).Perm
        ((extra :: (before ++ after)).flatMap Part.settings) := List.perm_middle.flatMap_right _
    have hplain : ∀ st ∈ (before ++ extra :: after).flatMap Part.settings, st.Plain :=
      fun st hst => hp st (hperm.mem_iff.mp hst)
    have harguments : before.flatMap Part.arguments ++ extra.arguments ++
        after.flatMap Part.arguments = (before ++ extra :: after).flatMap Part.arguments := by
      simp
    obtain ⟨e, he⟩ := foldlM_set_of_not_nodup fun hn =>
      htwice ((hperm.map Setting.kind).nodup_iff.mp hn)
    exact ⟨e, by rw [Request.ofArguments, harguments, takeAll_parts hplain, he]; rfl⟩
  · have hplain : ∀ st ∈ before.flatMap Part.settings, st.Plain := fun st hst => by
      refine hp st ?_
      rw [List.flatMap_cons, List.flatMap_append]
      exact List.mem_append_right _ (List.mem_append_left _ hst)
    obtain ⟨e, he⟩ := takeAll_due_switch hextra (back ++ rest)
    have harguments : before.flatMap Part.arguments ++ [String.ofList switch.text] ++
        extra.arguments ++ back ++ rest = before.flatMap Part.arguments ++
          (String.ofList switch.text :: (extra.arguments ++ (back ++ rest))) := by
      simp
    rw [Request.ofArguments, harguments, takeAll_parts hplain]
    refine exists_error_bind fun a => ?_
    rw [takeAll_configSwitch]
    exact exists_error_bind fun a => ⟨e, he a⟩

end Arguments

namespace Surroundings

variable {s : Surroundings}

theorem withoutLog_execute_congr {arguments arguments' : List String} {a b : Arguments}
    (ha : Request.ofArguments arguments = .ok (.print a))
    (hb : Request.ofArguments arguments' = .ok (.print b)) (hswitches : a.switches = b.switches)
    (hconfig : a.config = b.config) (hinput : a.input = b.input) :
    (s.execute arguments).withoutLog = (s.execute arguments').withoutLog := by
  rw [execute_eq ha, execute_eq hb, hswitches, hconfig, hinput]
  cases s.loadConfig b.config with
  | error report => rfl
  | ok config =>
    cases s.readInput b.input with
    | error report => rfl
    | ok source =>
      exact (CommandLine.withoutLog_ofRun _ _).trans (CommandLine.withoutLog_ofRun _ _).symm

theorem execute_of_refused {arguments : List String} {e : UsageError}
    (h : Request.ofArguments arguments = .error e) : s.execute arguments = { code := 2 } := by
  rw [execute, CommandLine.execute, h]
  rfl

/-- **Neither the order nor the spelling of arguments counts, and nothing may be said twice.** All
writings of the same arguments are taken for these and show the same, whether a log is asked for or
not. With one more part that says something again, wherever it is put in among the others, the
command is refused. -/
theorem execute_writtenAs (s : Surroundings) :
    (∀ (a b : Arguments) (arguments arguments' : List String),
      (∀ st ∈ a.settings, st.Plain) → a.WrittenAs arguments → b.WrittenAs arguments' →
      b = { a with verbose := b.verbose } →
        Request.ofArguments arguments = .ok (.print a) ∧
        (s.execute arguments').withoutLog = (s.execute arguments).withoutLog) ∧
    ∀ (parts : List Part) (extra : Part) (front back rest : List String),
      (∀ st ∈ (extra :: parts).flatMap Part.settings, st.Plain) → extra.isInput = false →
      Part.SaysTwice (extra :: parts) → front ++ back = parts.flatMap Part.arguments →
        s.execute (front ++ extra.arguments ++ back ++ rest) = { code := 2 } := by
  constructor
  · intro a b arguments arguments' hp ha hb hab
    have hplain : ∀ st ∈ b.settings, st.Plain := by
      intro st hst
      rw [Arguments.mem_settings, hab] at hst
      cases st with
      | flag flag => trivial
      | config path | input path => exact hp _ (Arguments.mem_settings.mpr hst)
    have hrequest := Arguments.ofArguments_of_writtenAs hp ha
    refine ⟨hrequest, ?_⟩
    exact withoutLog_execute_congr (Arguments.ofArguments_of_writtenAs hplain hb) hrequest
      (by rw [hab]; rfl) (by rw [hab]) (by rw [hab])
  · intro parts extra front back rest hp hextra htwice hsplit
    obtain ⟨e, he⟩ := Arguments.refused_of_saysTwice hp hextra htwice hsplit
    exact execute_of_refused he

/-- The same arguments in two spellings, of which one asks for a log too; and a switch that comes
again, between another and its path. -/
theorem execute_writtenAs_gathered :
    ((ofFiles Run.nestedMessage).execute ["-vpcc.json", "m.json"]).withoutLog =
        ((ofFiles Run.nestedMessage).execute
          ["--config=c.json", "--pretty", "--", "m.json"]).withoutLog ∧
      (ofFiles Run.nestedMessage).execute
        ["--pretty", "-c", "-vp", "c.json", "m.json"] = { code := 2 } := by
  obtain ⟨hsame, htwice⟩ := execute_writtenAs (ofFiles Run.nestedMessage)
  refine ⟨(hsame { pretty := true, config := some "c.json", input := some "m.json" }
    { pretty := true, verbose := true, config := some "c.json", input := some "m.json" }
    _ _ (by decide) ?_ ?_ rfl).2, ?_⟩
  · exact .inputLast [.configEquals .long "c.json", .long .pretty] (some "m.json") (by decide)
  · exact .parts [.configAttached [.verbose, .pretty] "c.json", .input "m.json"] (by decide)
  · exact htwice [.long .pretty, .config (.short []) "c.json", .input "m.json"]
      (.short .verbose [.pretty]) ["--pretty", "-c"] ["c.json", "m.json"] [] (by decide) rfl
      (by decide) rfl

end Surroundings

end IcuMessage
