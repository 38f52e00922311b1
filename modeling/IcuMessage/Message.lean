/-
Messages as trees: literal text interleaved with arguments, an argument
formatted by a simple kind (with a style) or by branches (with an offset),
each branch holding a message again. A message is a list of elements, so
concatenation of messages is concatenation of lists.

Equality is structural and decidable: an index differs from the name with
the same digits, and an absent style or offset from an empty or zero one.
-/
import IcuMessage.Decimal

namespace IcuMessage

/-- What an argument is called: a position, or a name. -/
inductive ArgumentId where
  | index (position : UInt64)
  | name (value : String)
  deriving DecidableEq, Repr, Inhabited

namespace ArgumentId

/-- The identifier as message syntax shows it. -/
def text : ArgumentId → List Char
  | .index position => Decimal.natural position.toNat
  | .name value => value.toList

end ArgumentId

/-- The kinds of format that take at most a style. -/
inductive SimpleKind where
  | number
  | date
  | time
  deriving DecidableEq, Repr, Inhabited

/-- The kinds of format that choose between branches. -/
inductive BranchKind where
  | plural
  | selectOrdinal
  | select
  deriving DecidableEq, Repr, Inhabited

/-- The type of a formatted argument, named after its identifier in message syntax. -/
inductive ArgumentType where
  | simple (kind : SimpleKind)
  | branching (kind : BranchKind)
  deriving DecidableEq, Repr, Inhabited

namespace ArgumentType

def name : ArgumentType → String
  | simple .number => "number"
  | simple .date => "date"
  | simple .time => "time"
  | branching .plural => "plural"
  | branching .selectOrdinal => "selectordinal"
  | branching .select => "select"

def all : List ArgumentType :=
  [simple .number, simple .date, simple .time,
    branching .plural, branching .selectOrdinal, branching .select]

def ofName? (name : String) : Option ArgumentType :=
  all.find? (·.name == name)

def isSimple : ArgumentType → Bool
  | simple _ => true
  | branching _ => false

def isBranching (type : ArgumentType) : Bool :=
  !type.isSimple

theorem ofName?_name (type : ArgumentType) : ofName? type.name = some type := by
  rcases type with ⟨_ | _ | _⟩ | ⟨_ | _ | _⟩ <;> decide

theorem name_injective {a b : ArgumentType} (h : a.name = b.name) : a = b :=
  Option.some.inj (by rw [← ofName?_name a, h, ofName?_name b])

end ArgumentType

mutual

inductive Element where
  | text (value : String)
  | placeholder (id : ArgumentId)
  | argument (id : ArgumentId) (format : Format)

inductive Format where
  | simple (kind : SimpleKind) (style : Option String)
  | branching (kind : BranchKind) (offset : Option Int64) (branches : List Branch)

inductive Branch where
  | mk (selector : String) (value : List Element)

end

abbrev Message := List Element

namespace Format

def type : Format → ArgumentType
  | simple kind _ => .simple kind
  | branching kind _ _ => .branching kind

def style : Format → Option String
  | simple _ style => style
  | branching _ _ _ => none

def offset : Format → Option Int64
  | simple _ _ => none
  | branching _ offset _ => offset

def branches : Format → List Branch
  | simple _ _ => []
  | branching _ _ branches => branches

end Format

namespace Branch

def selector : Branch → String
  | mk selector _ => selector

def value : Branch → Message
  | mk _ value => value

end Branch

/-! ## Equality -/

mutual

def Element.decEq : (a b : Element) → Decidable (a = b)
  | .text v, .text w => decidable_of_iff (v = w) (by simp)
  | .placeholder i, .placeholder j => decidable_of_iff (i = j) (by simp)
  | .argument i f, .argument j g =>
    have := f.decEq g
    decidable_of_iff (i = j ∧ f = g) (by simp)
  | .text _, .placeholder _ | .text _, .argument _ _ | .placeholder _, .text _
  | .placeholder _, .argument _ _ | .argument _ _, .text _ | .argument _ _, .placeholder _ =>
    isFalse nofun
termination_by structural a => a

def Format.decEq : (a b : Format) → Decidable (a = b)
  | .simple k s, .simple l t => decidable_of_iff (k = l ∧ s = t) (by simp)
  | .branching k n bs, .branching l m cs =>
    have := Branch.decEqList bs cs
    decidable_of_iff (k = l ∧ n = m ∧ bs = cs) (by simp)
  | .simple _ _, .branching _ _ _ | .branching _ _ _, .simple _ _ => isFalse nofun
termination_by structural a => a

def Branch.decEqList : (a b : List Branch) → Decidable (a = b)
  | [], [] => isTrue rfl
  | ⟨s, v⟩ :: bs, ⟨t, w⟩ :: cs =>
    have := Element.decEqList v w
    have := Branch.decEqList bs cs
    decidable_of_iff ((s = t ∧ v = w) ∧ bs = cs) (by simp)
  | [], _ :: _ | _ :: _, [] => isFalse nofun
termination_by structural a => a

def Element.decEqList : (a b : List Element) → Decidable (a = b)
  | [], [] => isTrue rfl
  | x :: xs, y :: ys =>
    have := x.decEq y
    have := Element.decEqList xs ys
    decidable_of_iff (x = y ∧ xs = ys) (by simp)
  | [], _ :: _ | _ :: _, [] => isFalse nofun
termination_by structural a => a

end

instance : DecidableEq Element := Element.decEq

instance : DecidableEq Format := Format.decEq

instance : DecidableEq Branch
  | ⟨s, v⟩, ⟨t, w⟩ => decidable_of_iff (s = t ∧ v = w) (by simp)

end IcuMessage
