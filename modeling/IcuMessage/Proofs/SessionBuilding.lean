/-
What a session can build: the messages in which no select has an offset, at any
depth (`Message.Constructible`), and no others. The steps for a message are those
for its elements in order, the options of an argument being gathered in a frame of
their own; run in any session they append the message and leave all else as it was
(`Element.passes_stepsAll`). Conversely no step but loading puts a select with an
offset into a frame (`Session.Constructible.step`).
-/
import IcuMessage.Session
import IcuMessage.Proofs.Json.Steps
import IcuMessage.Proofs.Message.Preorder

namespace IcuMessage

/-! ## Selects without an offset -/

/-- A select has no offset: none is given when it is constructed, only reading gives it one. -/
def Format.Constructible (format : Format) : Prop :=
  format.type = .branching .select → format.offset = none

instance : DecidablePred Format.Constructible := fun format =>
  inferInstanceAs (Decidable (format.type = .branching .select → format.offset = none))

def Element.Constructible : Element → Prop
  | .text _ | .placeholder _ => True
  | .argument _ format => format.Constructible

instance : DecidablePred Element.Constructible
  | .text _ | .placeholder _ => isTrue trivial
  | .argument _ format => inferInstanceAs (Decidable format.Constructible)

namespace Message

/-- Every element is constructible, at any depth. -/
def Constructible (message : Message) : Prop :=
  ∀ e ∈ Element.preorderAll message, e.Constructible

instance : DecidablePred Constructible := fun message =>
  inferInstanceAs (Decidable (∀ e ∈ Element.preorderAll message, e.Constructible))

variable {as bs : Message}

theorem constructible_nil : Constructible [] := nofun

theorem constructible_iff : Constructible as ↔ ∀ a ∈ as, ∀ e ∈ a.preorder, e.Constructible := by
  simp only [Constructible, Element.mem_preorderAll]
  exact ⟨fun h a ha e he => h e ⟨a, ha, he⟩, fun h e ⟨a, ha, he⟩ => h a ha e he⟩

theorem Constructible.of_subset (h : Constructible bs) (hsub : as ⊆ bs) : Constructible as :=
  constructible_iff.mpr fun a ha => constructible_iff.mp h a (hsub ha)

theorem constructible_append :
    Constructible (as ++ bs) ↔ Constructible as ∧ Constructible bs := by
  simp only [constructible_iff, List.forall_mem_append]

theorem constructible_cons {a : Element} :
    Constructible (a :: as) ↔ Constructible [a] ∧ Constructible as :=
  @constructible_append [a] as

theorem constructible_text (value : String) : Constructible [.text value] := by
  simp [constructible_iff, Element.preorder, Element.Constructible]

theorem constructible_placeholder (id : ArgumentId) : Constructible [.placeholder id] := by
  simp [constructible_iff, Element.preorder, Element.Constructible]

theorem constructible_argument {id : ArgumentId} {format : Format} :
    Constructible [.argument id format] ↔
      format.Constructible ∧ ∀ b ∈ format.branches, Constructible b.value := by
  simp only [constructible_iff, List.forall_mem_singleton, Element.preorder, List.forall_mem_cons,
    Element.Constructible, Format.mem_preorder]
  refine and_congr_right fun _ => ⟨fun h b hb c hc e he => h e ⟨b, hb, c, hc, he⟩, ?_⟩
  rintro h e ⟨b, hb, c, hc, he⟩
  exact h b hb c hc e he

theorem Constructible.nestOnce (h : Constructible as) (id : ArgumentId) (selector : String) :
    Constructible (Frame.nestOnce id selector as) :=
  constructible_argument.mpr ⟨fun _ => rfl, List.forall_mem_singleton.mpr h⟩

theorem Constructible.nest (h : Constructible as) (id : ArgumentId) (selector : String)
    (count : Nat) : Constructible (Frame.nest id selector count as) := by
  induction count generalizing as with
  | zero => exact h
  | succ count ih => exact ih (h.nestOnce id selector)

end Message

/-! ## Steps that succeed -/

namespace Session

/-- The session with other elements in its top frame. -/
def holding (session : Session) (elements : Message) : Session :=
  { session with top := { session.top with elements := elements } }

/-- Every step succeeds, and the last of them leads to `last`. -/
def Passes (session : Session) (steps : List Step) (last : Session) : Prop :=
  steps.foldlM step session = .ok last

variable {session next last : Session} {s : Step} {steps : List Step}

theorem passes_cons_iff :
    session.Passes (s :: steps) last ↔ ∃ next, session.step s = .ok next ∧
      next.Passes steps last := by
  rw [Passes, List.foldlM_cons, Json.bind_ok_iff]
  rfl

theorem passes_singleton_iff : session.Passes [s] last ↔ session.step s = .ok last := by
  simp [Passes]

theorem Passes.append {more : List Step} (h : session.Passes steps next)
    (hmore : next.Passes more last) : session.Passes (steps ++ more) last := by
  rw [Passes, List.foldlM_append, Json.bind_ok_iff]
  exact ⟨next, h, hmore⟩

theorem advance_of_ok (h : session.step s = .ok next) : session.advance s = next := by
  rw [advance, h]

theorem advance_of_error {error : StepError} (h : session.step s = .error error) :
    session.advance s = session := by
  rw [advance, h]

theorem run_append (session : Session) (steps more : List Step) :
    session.run (steps ++ more) = (session.run steps).run more :=
  List.foldl_append

theorem run_singleton (session : Session) (s : Step) : session.run [s] = session.advance s :=
  rfl

theorem Passes.run (h : session.Passes steps last) : session.run steps = last := by
  induction steps generalizing session with
  | nil => exact Except.ok.inj h
  | cons s steps ih =>
    obtain ⟨next, hstep, hrest⟩ := passes_cons_iff.mp h
    rw [Session.run, List.foldl_cons, advance_of_ok hstep]
    exact ih hrest

theorem offsetFor_eq_self_iff {kind : BranchKind} {offset : Option Int64}
    {branches : List Branch} :
    offsetFor kind offset = offset ↔ (Format.branching kind offset branches).Constructible := by
  cases kind <;>
    simp [offsetFor, Format.Constructible, Format.type, Format.offset, eq_comm]

theorem offsetFor_offsetFor (kind : BranchKind) (offset : Option Int64) :
    offsetFor kind (offsetFor kind offset) = offsetFor kind offset := by
  cases kind <;> rfl

end Session

/-! ## The steps for a message -/

namespace Step

/-- Steps that add an element or an option, or open or close a frame. -/
def builds : Step → Bool
  | .openFrame | .text _ | .placeholder _ | .simple _ _ _ | .branch _ | .close _ _ _ => true
  | .setLayout _ | .load _ | .nest _ _ _ | .removeLast => false

def loads : Step → Bool
  | .load _ => true
  | _ => false

theorem not_loads_of_builds {s : Step} (h : s.builds) : s.loads = false := by
  cases s <;> first | rfl | nomatch h

end Step

mutual

def Element.steps : Element → List Step
  | .text value => [.text value]
  | .placeholder id => [.placeholder id]
  | .argument id format => format.steps id

def Format.steps (id : ArgumentId) : Format → List Step
  | .simple kind style => [.simple kind id style]
  | .branching kind offset branches =>
    .openFrame :: (Branch.stepsAll branches ++ [.close kind id offset])

def Branch.stepsAll : List Branch → List Step
  | [] => []
  | ⟨selector, value⟩ :: rest =>
    Element.stepsAll value ++ .branch selector :: Branch.stepsAll rest

def Element.stepsAll : List Element → List Step
  | [] => []
  | e :: rest => e.steps ++ Element.stepsAll rest

end

mutual

theorem Element.builds_steps : ∀ e : Element, ∀ s ∈ e.steps, s.builds
  | .text _ | .placeholder _ => List.forall_mem_singleton.mpr rfl
  | .argument id format => format.builds_steps id

theorem Format.builds_steps (id : ArgumentId) : ∀ format : Format, ∀ s ∈ format.steps id, s.builds
  | .simple _ _ => List.forall_mem_singleton.mpr rfl
  | .branching _ _ branches => List.forall_mem_cons.mpr ⟨rfl, List.forall_mem_append.mpr
    ⟨Branch.builds_stepsAll branches, List.forall_mem_singleton.mpr rfl⟩⟩

theorem Branch.builds_stepsAll : ∀ branches : List Branch,
    ∀ s ∈ Branch.stepsAll branches, s.builds
  | [] => nofun
  | ⟨_, value⟩ :: rest => List.forall_mem_append.mpr
    ⟨Element.builds_stepsAll value, List.forall_mem_cons.mpr ⟨rfl, Branch.builds_stepsAll rest⟩⟩

theorem Element.builds_stepsAll : ∀ elements : List Element,
    ∀ s ∈ Element.stepsAll elements, s.builds
  | [] => nofun
  | e :: rest => List.forall_mem_append.mpr ⟨e.builds_steps, Element.builds_stepsAll rest⟩

end

open Message Session

-- By recursion on the message, for all sessions at once: the options of an argument are built on
-- top of whatever frames there are.
mutual

theorem Element.passes_steps : ∀ e : Element, Constructible [e] → ∀ session : Session,
    session.Passes e.steps (session.append [e])
  | .text _, _, _ | .placeholder _, _, _ => rfl
  | .argument id format, h, session => format.passes_steps id h session

theorem Format.passes_steps (id : ArgumentId) : ∀ format : Format,
    Constructible [.argument id format] → ∀ session : Session,
      session.Passes (format.steps id) (session.append [.argument id format])
  | .simple _ _, _, _ => rfl
  | .branching kind offset branches, h, session => by
    obtain ⟨hformat, hvalues⟩ := constructible_argument.mp h
    let inner : Session := { session with top := {}, below := session.top :: session.below }
    have hopen : session.step .openFrame = .ok inner := rfl
    have hbranches := Branch.passes_stepsAll branches hvalues inner rfl
    have hclose : ({ inner with top := ⟨[], branches⟩ } : Session).step (.close kind id offset) =
        .ok (session.append [.argument id (.branching kind offset branches)]) := by
      simp only [step, close, inner, offsetFor_eq_self_iff.mpr hformat]
      rfl
    exact passes_cons_iff.mpr ⟨inner, hopen, hbranches.append (passes_singleton_iff.mpr hclose)⟩

/-- The elements of each value are moved into its option, so the next value starts from none. -/
theorem Branch.passes_stepsAll : ∀ branches : List Branch,
    (∀ b ∈ branches, Constructible b.value) → ∀ session : Session, session.top.elements = [] →
      session.Passes (Branch.stepsAll branches)
        { session with top := ⟨[], session.top.branches ++ branches⟩ }
  | [], _, session, hempty => by
    rw [List.append_nil, ← hempty]
    rfl
  | ⟨selector, value⟩ :: rest, h, session, hempty => by
    obtain ⟨hvalue, hrest⟩ := List.forall_mem_cons.mp h
    have hvalues := Element.passes_stepsAll value hvalue session
    let moved : Session :=
      { session with top := ⟨[], session.top.branches ++ [⟨selector, value⟩]⟩ }
    have hbranch : (session.append value).step (.branch selector) = .ok moved := by
      simp only [step, Session.branch, Session.append, Frame.append, hempty, List.nil_append, moved]
    have hrest := Branch.passes_stepsAll rest hrest moved rfl
    rw [List.append_assoc, List.singleton_append] at hrest
    exact hvalues.append (passes_cons_iff.mpr ⟨moved, hbranch, hrest⟩)

theorem Element.passes_stepsAll : ∀ elements : List Element, Constructible elements →
    ∀ session : Session, session.Passes (Element.stepsAll elements) (session.append elements)
  | [], _, session => by
    rw [Session.append, Frame.append, List.append_nil]
    rfl
  | e :: rest, h, session => by
    obtain ⟨he, hrest⟩ := constructible_cons.mp h
    have hrest := Element.passes_stepsAll rest hrest (session.append [e])
    rw [Session.append, Session.append, Frame.append, Frame.append, List.append_assoc] at hrest
    exact (Element.passes_steps e he session).append hrest

end

/-! ## What steps keep -/

structure Frame.Constructible (frame : Frame) : Prop where
  elements : Message.Constructible frame.elements
  branches : ∀ b ∈ frame.branches, Message.Constructible b.value

theorem Frame.Constructible.append {frame : Frame} {elements : Message} (h : frame.Constructible)
    (helements : Message.Constructible elements) : (frame.append elements).Constructible :=
  ⟨constructible_append.mpr ⟨h.elements, helements⟩, h.branches⟩

namespace Session

def frames (session : Session) : List Frame :=
  session.top :: session.below

/-- What is in the elements and options of every frame is constructible. -/
def Constructible (session : Session) : Prop :=
  ∀ frame ∈ session.frames, frame.Constructible

variable {session next : Session} {s : Step} {steps : List Step}

theorem Constructible.top (h : session.Constructible) : session.top.Constructible :=
  h _ List.mem_cons_self

theorem Constructible.withTop (h : session.Constructible) {frame : Frame}
    (hframe : frame.Constructible) : ({ session with top := frame } : Session).Constructible :=
  List.forall_mem_cons.mpr ⟨hframe, (List.forall_mem_cons.mp h).2⟩

theorem Constructible.close {kind : BranchKind} {id : ArgumentId} {offset : Option Int64}
    (h : session.Constructible) (hclose : session.close kind id offset = .ok next) :
    next.Constructible := by
  obtain ⟨htop, hbelow⟩ := List.forall_mem_cons.mp h
  rw [Session.close] at hclose
  split at hclose
  · cases hclose
  next frame below heq =>
    cases hclose
    obtain ⟨hframe, hbelow⟩ := List.forall_mem_cons.mp (heq ▸ hbelow)
    have hoffset := offsetFor_offsetFor kind offset
    have hargument : Message.Constructible
        [.argument id (.branching kind (offsetFor kind offset) session.top.branches)] :=
      constructible_argument.mpr ⟨offsetFor_eq_self_iff.mp hoffset, htop.branches⟩
    exact List.forall_mem_cons.mpr ⟨hframe.append hargument, hbelow⟩

theorem Constructible.step (h : session.Constructible) (hload : s.loads = false)
    (hstep : session.step s = .ok next) : next.Constructible := by
  cases s with
  | openFrame =>
    cases hstep
    exact List.forall_mem_cons.mpr ⟨⟨constructible_nil, nofun⟩, h⟩
  | setLayout layout =>
    cases hstep
    exact h
  | text value =>
    cases hstep
    exact h.withTop (h.top.append (constructible_text value))
  | placeholder id =>
    cases hstep
    exact h.withTop (h.top.append (constructible_placeholder id))
  | simple kind id style =>
    cases hstep
    exact h.withTop (h.top.append (constructible_argument.mpr ⟨nofun, nofun⟩))
  | branch selector =>
    cases hstep
    refine h.withTop ⟨constructible_nil, List.forall_mem_append.mpr ⟨h.top.branches, ?_⟩⟩
    exact List.forall_mem_singleton.mpr h.top.elements
  | close kind id offset => exact h.close hstep
  | load source => nomatch hload
  | nest id selector count =>
    cases hstep
    exact h.withTop ⟨h.top.elements.nest id selector count, h.top.branches⟩
  | removeLast =>
    cases hstep
    exact h.withTop ⟨h.top.elements.of_subset (List.dropLast_subset _), h.top.branches⟩

theorem Constructible.advance (h : session.Constructible) (hload : s.loads = false) :
    (session.advance s).Constructible := by
  cases hstep : session.step s with
  | ok next =>
    rw [advance_of_ok hstep]
    exact h.step hload hstep
  | error error =>
    rw [advance_of_error hstep]
    exact h

theorem Constructible.run (h : session.Constructible) (hload : ∀ s ∈ steps, s.loads = false) :
    (session.run steps).Constructible := by
  induction steps generalizing session with
  | nil => exact h
  | cons s steps ih =>
    obtain ⟨hs, hsteps⟩ := List.forall_mem_cons.mp hload
    exact ih (h.advance hs) hsteps

theorem constructible_initial : ({} : Session).Constructible :=
  List.forall_mem_singleton.mpr ⟨constructible_nil, nofun⟩

/-- Apart from loading, only closing the lowest frame fails. -/
theorem step_eq_error_iff (hload : s.loads = false) {error : StepError} :
    session.step s = .error error ↔ error = .noOpenFrame ∧ session.depth = 1 ∧
      ∃ kind id offset, s = .close kind id offset := by
  cases s with
  | load source => nomatch hload
  | close kind id offset =>
    cases hbelow : session.below with
    | nil => simp [step, close, depth, hbelow, eq_comm]
    | cons frame below => simp [step, close, depth, hbelow]
  | _ => simp [step]

end Session

/-- **Sessions build all messages without a select with an offset, and no others.** For such a
message there are steps that succeed in any session whose top frame has no elements, and then these
are the message and nothing else has changed. Without loading, no frame or option ever holds a
select with an offset, since closing a frame as a select drops it. There is always a frame, for
closing the lowest one is the only step that fails, and a step that fails changes nothing. -/
theorem Session.constructible_iff_built :
    (∀ message : Message, message.Constructible ↔
      ∃ steps : List Step, (∀ s ∈ steps, s.builds) ∧ ∀ session : Session,
        (session.holding []).Passes steps (session.holding message) ∧
        (session.holding []).run steps = session.holding message) ∧
    (∀ steps : List Step, (∀ s ∈ steps, s.loads = false) →
      (({} : Session).run steps).frames ≠ [] ∧
      ∀ frame ∈ (({} : Session).run steps).frames, frame.elements.Constructible ∧
        ∀ b ∈ frame.branches, b.value.Constructible) ∧
    (∀ (session : Session) (id : ArgumentId) (offset : Option Int64),
      session.step (.close .select id offset) = session.step (.close .select id none)) ∧
    (∀ (session : Session) (steps : List Step) (s : Step) (error : StepError),
      (session.run steps).step s = .error error →
        session.run (steps ++ [s]) = session.run steps) ∧
    ∀ (session : Session) (s : Step), s.loads = false →
      ((∃ error, session.step s = .error error) ↔
        session.depth = 1 ∧ ∃ kind id offset, s = .close kind id offset) := by
  refine ⟨fun message => ⟨fun h => ?_, ?_⟩, fun steps hload => ⟨nofun, fun frame hframe => ?_⟩,
    fun _ _ _ => rfl, fun session steps s error herror => ?_, fun session s hload => ?_⟩
  · refine ⟨Element.stepsAll message, Element.builds_stepsAll message, fun session => ?_⟩
    have hpasses := Element.passes_stepsAll message h (session.holding [])
    exact ⟨hpasses, hpasses.run⟩
  · rintro ⟨steps, hbuilds, hpasses⟩
    have hload := fun s hs => Step.not_loads_of_builds (hbuilds s hs)
    have hrun := constructible_initial.run hload
    rw [show ({} : Session) = ({} : Session).holding [] from rfl, (hpasses {}).2] at hrun
    exact (hrun _ List.mem_cons_self).elements
  · obtain ⟨helements, hbranches⟩ := constructible_initial.run hload frame hframe
    exact ⟨helements, hbranches⟩
  · rw [run_append, run_singleton, advance_of_error herror]
  · simp [step_eq_error_iff hload]

/-- A plural with an offset within a select is built anywhere. Asked for with an offset, a select
is built without one, and closing the lowest frame before that changes nothing. -/
theorem Session.constructible_iff_built_nested :
    let plural := Format.branching .plural (some 1) [⟨"one", [.text "b"]⟩]
    let message : Message := [.text "a", .argument (.name "x")
      (.branching .select none [⟨"other", [.argument (.index 0) plural]⟩])]
    let closing : List Step := [.close .select (.name "y") none, .openFrame, .text "a",
      .branch "other", .close .select (.name "x") (some 3)]
    message.Constructible ∧
    (∃ steps : List Step, (∀ s ∈ steps, s.builds) ∧ ∀ session : Session,
      (session.holding []).Passes steps (session.holding message) ∧
      (session.holding []).run steps = session.holding message) ∧
    (∀ s ∈ closing, s.loads = false) ∧
    (({} : Session).run closing).frames =
      [⟨[.argument (.name "x") (.branching .select none [⟨"other", [.text "a"]⟩])], []⟩] ∧
    ∀ frame ∈ (({} : Session).run closing).frames, frame.elements.Constructible ∧
      ∀ b ∈ frame.branches, b.value.Constructible := by
  intro plural message closing
  obtain ⟨hbuilt, hreached, -⟩ := Session.constructible_iff_built
  have hmessage : message.Constructible := by decide
  have hload : ∀ s ∈ closing, s.loads = false := by decide
  exact ⟨hmessage, (hbuilt message).mp hmessage, hload, rfl, (hreached closing hload).2⟩

end IcuMessage
