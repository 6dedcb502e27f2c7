import Mathlib.Logic.Function.Basic

/-!
# Typed keyspaces

A keyspace over the key families `K` holds, for every family `κ` and every name, a value of the
family's own type `V κ`. A missing key is the type's default value, as an empty list or hash is a
missing key in Redis. Families never share a key: where Redis, which has one space of keys, answers
`WRONGTYPE` to a name that is used for two types, there are two keys here. `set` writes one key; a
write to one family leaves every other family as it was, which is the one frame rule (`set_of_ne`)
all others are derived from.
-/

namespace Redis

/-- One value of type `V κ` for every family `κ` and every name. -/
@[ext]
structure Keyspace (K : Type) (V : K → Type) where
  /-- The value of a key. -/
  get : (κ : K) → String → V κ

namespace Keyspace

variable {K : Type} {V : K → Type}

instance : CoeFun (Keyspace K V) fun _ => (κ : K) → String → V κ := ⟨Keyspace.get⟩

variable [DecidableEq K]

/-- Write one key. -/
def set (s : Keyspace K V) (κ : K) (name : String) (v : V κ) : Keyspace K V :=
  ⟨Function.update s.get κ (Function.update (s κ) name v)⟩

/-- Apply a function to the value of one key. -/
def modify (s : Keyspace K V) (κ : K) (name : String) (f : V κ → V κ) : Keyspace K V :=
  s.set κ name (f (s κ name))

@[simp]
theorem set_self (s : Keyspace K V) (κ : K) (name : String) (v : V κ) :
    s.set κ name v κ = Function.update (s κ) name v :=
  Function.update_self ..

@[simp]
theorem set_of_ne (s : Keyspace K V) {κ κ' : K} (h : κ' ≠ κ) (name : String) (v : V κ) :
    s.set κ name v κ' = s κ' :=
  Function.update_of_ne h ..

@[simp]
theorem modify_self (s : Keyspace K V) (κ : K) (name : String) (f : V κ → V κ) :
    s.modify κ name f κ = Function.update (s κ) name (f (s κ name)) :=
  set_self ..

@[simp]
theorem modify_of_ne (s : Keyspace K V) {κ κ' : K} (h : κ' ≠ κ) (name : String)
    (f : V κ → V κ) : s.modify κ name f κ' = s κ' :=
  set_of_ne _ h ..

/-- Writing back what a key holds changes nothing. -/
theorem set_eq_self (s : Keyspace K V) {κ : K} {name : String} {v : V κ} (h : s κ name = v) :
    s.set κ name v = s := by
  subst h
  simp [set]

end Keyspace

end Redis
