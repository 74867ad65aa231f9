import Mathlib.Algebra.Group.Int.Defs
import Mathlib.Data.List.Nodup

/-!
# JSON values and derived struct decoders

A struct with a derived decoder names its fields. Given an object it reads the members of those
names and ignores all others; a member that is given twice is an error, a missing one is up to the
field's type. Given an array it takes the elements as the fields in order, and there have to be as
many.

So two structs that read the same document see the same thing wherever they name the same field:
`struct_eq_member` if the document is an object, and an array fits both only if they have the same
number of fields (`struct_agree`). `path_struct` compares a struct with a path through the document.

The last section is the rule for computations that may fail: what a chain of them has returned, it
has returned step by step.
-/

set_option autoImplicit false

namespace Argunix.Lib

inductive Json
  | null
  | bool (b : Bool)
  | int (n : ℤ)
  | real (text : String)
  | str (s : String)
  | arr (elements : List Json)
  | obj (members : List (String × Json))
deriving Repr

namespace Json

/-- The first member of this name. -/
def member (members : List (String × Json)) (key : String) : Option Json :=
  (members.find? fun m => m.1 = key).map Prod.snd

/-- No field is given twice. -/
def Unambiguous (names : List String) (members : List (String × Json)) : Prop :=
  ∀ key ∈ names, (members.filter fun m => m.1 = key).length ≤ 1

instance (names : List String) (members : List (String × Json)) :
    Decidable (Unambiguous names members) :=
  inferInstanceAs (Decidable (∀ key ∈ names, _ ≤ _))

/-- The fields of a derived struct, by name. -/
def struct (names : List String) : Json → Option (String → Option Json)
  | obj members => if Unambiguous names members then some (member members) else none
  | arr elements =>
    if elements.length = names.length then some fun key => elements[names.idxOf key]? else none
  | _ => none

/-! ## Fields -/

section

variable {α : Type}

/-- A field of a type that has no default. -/
def required (decode : Json → Option α) : Option Json → Option α
  | some v => decode v
  | none => none

/-- A field of type `Option`: it may be missing or `null`. -/
def optional (decode : Json → Option α) : Option Json → Option (Option α)
  | none | some null => some none
  | some v => (decode v).map some

end

def string : Json → Option String
  | str s => some s
  | _ => none

def u64 : Json → Option ℕ
  | int n => if 0 ≤ n ∧ n < 2 ^ 64 then some n.toNat else none
  | _ => none

/-! ## Two structs of one document -/

variable {names names' : List String} {v : Json} {get get' : String → Option Json}

theorem struct_cases (h : v.struct names = some get) :
    (∃ members, v = obj members ∧ get = member members) ∨
      ∃ elements, v = arr elements ∧ elements.length = names.length := by
  cases v with
  | obj members =>
    simp only [struct] at h
    split at h
    · exact Or.inl ⟨members, rfl, (Option.some.inj h).symm⟩
    · exact absurd h (by simp)
  | arr elements =>
    simp only [struct] at h
    split at h
    · rename_i hlen
      exact Or.inr ⟨elements, rfl, hlen⟩
    · exact absurd h (by simp)
  | null | bool | int | real | str => exact absurd h (by simp [struct])

/-- **Two structs with different numbers of fields read the same members.** -/
theorem struct_agree (h : v.struct names = some get) (h' : v.struct names' = some get')
    (hne : names.length ≠ names'.length) :
    ∃ members, v = obj members ∧ get = member members ∧ get' = member members := by
  rcases struct_cases h with ⟨members, rfl, hget⟩ | ⟨elements, rfl, hlen⟩
  · rcases struct_cases h' with ⟨members', heq, hget'⟩ | ⟨elements, heq, -⟩
    · obtain rfl := obj.inj heq
      exact ⟨members, rfl, hget, hget'⟩
    · exact absurd heq (by simp)
  · rcases struct_cases h' with ⟨members', heq, -⟩ | ⟨elements', heq, hlen'⟩
    · exact absurd heq (by simp)
    · obtain rfl := arr.inj heq
      exact absurd (hlen.symm.trans hlen') hne

/-- The members of an object that gives none of them twice. -/
def fields : Json → Option (String → Option Json)
  | obj members => if (members.map Prod.fst).Nodup then some (member members) else none
  | _ => none

/-- Any struct can read such an object. -/
theorem struct_of_fields (h : v.fields = some get) (names : List String) :
    v.struct names = some get := by
  cases v with
  | obj members =>
    simp only [fields] at h
    split at h
    · rename_i hnodup
      have hun : Unambiguous names members := by
        intro key _
        have hcount := List.nodup_iff_count_le_one.mp hnodup key
        rw [List.count, List.countP_map, List.countP_eq_length_filter] at hcount
        exact hcount
      simp only [struct, if_pos hun]
      exact h
    · exact absurd h (by simp)
  | null | bool | int | real | str | arr => exact absurd h (by simp [fields])

/-! ## Paths -/

/-- The value at the end of a path of object members. -/
def path : List String → Json → Option Json
  | [], v => some v
  | key :: keys, obj members => (member members key).bind (path keys)
  | _ :: _, _ => none

def pathString (keys : List String) (v : Json) : Option String := (v.path keys).bind string

/-- What a path leads through is an object, also to a struct. -/
theorem obj_of_path {key : String} {keys : List String} {x : Json} (h : v.struct names = some get)
    (hpath : v.path (key :: keys) = some x) : ∃ members, v = obj members ∧ get = member members := by
  rcases struct_cases h with hobj | ⟨elements, rfl, -⟩
  · exact hobj
  · exact absurd hpath (by simp [path])

/-- A path goes through the field of a struct. -/
theorem path_struct {key : String} {keys : List String} {x : Json} (h : v.struct names = some get)
    (hpath : v.path (key :: keys) = some x) : ∃ w, get key = some w ∧ w.path keys = some x := by
  obtain ⟨members, rfl, rfl⟩ := obj_of_path h hpath
  exact Option.bind_eq_some_iff.mp hpath

theorem string_eq_some {v : Json} {s : String} : string v = some s ↔ v = str s := by
  cases v <;> simp [string]

theorem pathString_eq_some {keys : List String} {s : String} :
    v.pathString keys = some s ↔ v.path keys = some (str s) := by
  simp [pathString, Option.bind_eq_some_iff, string_eq_some]

theorem required_string {v : Option Json} {s : String} :
    required string v = some s ↔ v = some (str s) := by
  cases v with
  | none => simp [required]
  | some v => simp [required, string_eq_some]

end Json

/-! ## Computations that may fail -/

theorem bind_eq_ok {ε α β : Type} {x : Except ε α} {f : α → Except ε β} {b : β} :
    (x >>= f) = .ok b ↔ ∃ a, x = .ok a ∧ f a = .ok b := by
  cases x with
  | error e =>
    constructor
    · intro h
      exact absurd h (by simp [bind, Except.bind])
    · rintro ⟨a, ha, -⟩
      exact absurd ha (by simp)
  | ok a => simp [bind, Except.bind]

theorem map_eq_ok {ε α β : Type} {x : Except ε α} {f : α → β} {b : β} :
    x.map f = .ok b ↔ ∃ a, x = .ok a ∧ f a = b := by
  cases x <;> simp [Except.map]

end Argunix.Lib
