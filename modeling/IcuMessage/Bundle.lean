/-
Bundles: messages, or their texts, under distinct keys in the order in which
the keys first came. Putting something under a key that is taken replaces what
was there and keeps its place.
-/
import IcuMessage.Print
import IcuMessage.Message.Read
import IcuMessage.Json.Write

namespace IcuMessage

namespace Entries

variable {α β : Type}

def keys (entries : List (String × α)) : List String :=
  entries.map (·.1)

def put (key : String) (a : α) : List (String × α) → List (String × α)
  | [] => [(key, a)]
  | (k, b) :: rest => if k = key then (key, a) :: rest else (k, b) :: put key a rest

theorem keys_put (key : String) (a : α) (entries : List (String × α)) :
    keys (put key a entries) =
      if key ∈ keys entries then keys entries else keys entries ++ [key] := by
  induction entries with
  | nil => rfl
  | cons entry rest ih =>
    obtain ⟨k, b⟩ := entry
    by_cases hk : k = key
    · subst hk; simp [put, keys]
    · simp only [put, hk, if_false, keys, List.map_cons] at ih ⊢
      rw [ih]
      by_cases hm : key ∈ rest.map (·.1) <;> simp [hm, Ne.symm hk]

theorem nodup_keys_put (key : String) (a : α) {entries : List (String × α)}
    (h : (keys entries).Nodup) : (keys (put key a entries)).Nodup := by
  rw [keys_put]
  split
  · exact h
  · rename_i hm
    rw [List.nodup_append]
    refine ⟨h, by simp, ?_⟩
    intro k hk l hl he
    rw [List.mem_singleton] at hl
    exact hm (hl ▸ he ▸ hk)

end Entries

structure Bundle (α : Type) where
  entries : List (String × α)
  distinct : (Entries.keys entries).Nodup

namespace Bundle

variable {α β : Type}

def empty : Bundle α :=
  ⟨[], List.nodup_nil⟩

def put (bundle : Bundle α) (key : String) (a : α) : Bundle α :=
  ⟨Entries.put key a bundle.entries, Entries.nodup_keys_put key a bundle.distinct⟩

def map (f : α → β) (bundle : Bundle α) : Bundle β where
  entries := bundle.entries.map fun (key, a) => (key, f a)
  distinct := by
    have same : Entries.keys (bundle.entries.map fun (key, a) => (key, f a)) =
        Entries.keys bundle.entries := by
      simp [Entries.keys, Function.comp_def]
    rw [same]
    exact bundle.distinct

def size (bundle : Bundle α) : Nat :=
  bundle.entries.length

/-! ## Reading -/

open Json

def member (read : Reader α) (room : Nat) (bundle : Bundle α) (key : String) (text : List Char) :
    Except Error (Bundle α × List Char) := do
  let rest ← expectColon text
  let (a, rest) ← read room rest
  .ok (bundle.put key a, rest)

/-- An object with a value for each member. Each is read, also where a later one replaces it. -/
def reader (read : Reader α) : Reader (Bundle α) := fun room text =>
  match skipBlanks text with
  | '{' :: rest =>
    Reader.enter (fun room rest => foldMembers (member read room) rest.length true rest empty)
      room rest
  | _ => Reader.wrongType "a map" text

def read (source : String) : Except Error (Bundle Message) :=
  (reader Message.reader).readAll source.toList

/-! ## Printing -/

def print (layout : Layout) (bundle : Bundle Message) : Bundle Printed :=
  bundle.map (Message.print layout)

def texts (layout : Layout) (bundle : Bundle Message) : Bundle String :=
  (bundle.print layout).map fun printed => String.ofList printed.text

/-! ## Writing -/

/-- A member of an object on a line of its own. -/
def writeEntry (entry : String × String) : List Char :=
  "\n  ".toList ++ StringLiteral.write entry.1 ++ ": ".toList ++ StringLiteral.write entry.2

/-- An object of strings with a line for each member. -/
def write (bundle : Bundle String) : List Char :=
  match bundle.entries with
  | [] => ['{', '}']
  | entries => '{' :: commaSeparated (entries.map writeEntry) ++ ['\n', '}']

end Bundle

end IcuMessage
