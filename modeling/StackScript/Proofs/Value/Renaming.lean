import StackScript.Proofs.Value.Congruence

/-!
# Functions under other identities

What a program does cannot depend on which numbers its closures were given, only
on which of them are the same. `Renamed` compares two values that differ in
these numbers alone: a closure on one side has the identity on the other that a
renaming makes of its own. All closures must be among the first so many, those
that have come into being.

Where the renaming keeps different identities different, operations cannot tell
the two sides apart (`Renamed.structural`).
-/

namespace StackScript

/-- **Values that differ in the identities of their closures alone**, all of
which are below a bound on the left side. -/
inductive Renamed (rename : Nat → Nat) (bound : Nat) : Value → Value → Prop where
  | number (n : Number) : Renamed rename bound (.number n) (.number n)
  | boolean (b : Bool) : Renamed rename bound (.boolean b) (.boolean b)
  | string (s : String) : Renamed rename bound (.string s) (.string s)
  | null : Renamed rename bound .null .null
  | routine (body : Routine) : Renamed rename bound (.routine body) (.routine body)
  | builtin (b : Builtin) : Renamed rename bound (.builtin b) (.builtin b)
  | array {xs ys : List Value} : xs.length = ys.length →
      (∀ (i : Nat) x y, xs[i]? = some x → ys[i]? = some y → Renamed rename bound x y) →
      Renamed rename bound (.array xs) (.array ys)
  | map {xs ys : List (Key × Value)} : xs.map (·.1) = ys.map (·.1) →
      (∀ (i : Nat) x y, xs[i]? = some x → ys[i]? = some y → Renamed rename bound x.2 y.2) →
      Renamed rename bound (.map xs) (.map ys)
  | closure {identity : Nat} {body : Routine} {xs ys : List Value} : identity < bound →
      xs.length = ys.length →
      (∀ (i : Nat) x y, xs[i]? = some x → ys[i]? = some y → Renamed rename bound x y) →
      Renamed rename bound (.closure identity body xs) (.closure (rename identity) body ys)

namespace Renamed

variable {rename rename' : Nat → Nat} {bound bound' : Nat} {v w : Value}

/-- Only what becomes of the identities below the bound matters, and the bound
may grow. -/
theorem congr (h : Renamed rename bound v w) (heq : ∀ i < bound, rename' i = rename i)
    (hle : bound ≤ bound') : Renamed rename' bound' v w := by
  induction h with
  | number n => exact .number n
  | boolean b => exact .boolean b
  | string s => exact .string s
  | null => exact .null
  | routine body => exact .routine body
  | builtin b => exact .builtin b
  | array hlen _ ih => exact .array hlen ih
  | map hkeys _ ih => exact .map hkeys ih
  | @closure i body xs ys hlt hlen _ ih =>
    rw [← heq i hlt]
    exact .closure (Nat.lt_of_lt_of_le hlt hle) hlen ih

theorem mono (h : Renamed rename bound v w) (hle : bound ≤ bound') : Renamed rename bound' v w :=
  h.congr (fun _ _ => rfl) hle

/-- A closure that has just come into being. -/
theorem new_closure (body : Routine) {xs ys : List Value}
    (h : List.Forall₂ (Renamed rename bound) xs ys) :
    Renamed rename (bound + 1) (.closure bound body xs) (.closure (rename bound) body ys) :=
  .closure (Nat.lt_succ_self _) h.length_eq fun i x y hx hy =>
    (getElem?_of_forall₂ h i x y hx hy).mono (Nat.le_succ _)

/-- What a closure has captured differs in the identities of closures alone. -/
theorem captured {i j : Nat} {body body' : Routine} {xs ys : List Value}
    (h : Renamed rename bound (.closure i body xs) (.closure j body' ys)) :
    List.Forall₂ (Renamed rename bound) xs ys := by
  cases h with
  | closure _ hlen hcaptured => exact forall₂_of_getElem? hlen hcaptured

/-- **Operations cannot tell renamed values apart.** -/
theorem structural (hinj : Function.Injective rename) (bound : Nat) :
    Structural (Renamed rename bound) where
  shape h := by
    cases h with
    | number n => exact .number n
    | boolean b => exact .boolean b
    | string s => exact .string s
    | null => exact .null
    | routine body => exact .routine body
    | builtin b => exact .builtin b
    | array hlen hitems => exact .array (forall₂_of_getElem? hlen hitems)
    | map hkeys hvalues => exact .map (EntryRel.forall₂_of_getElem? hkeys hvalues)
    | closure => exact .closure rfl
  identity h h' := by
    cases h
    cases h'
    exact hinj.eq_iff.symm
  number := .number
  boolean := .boolean
  string := .string
  null := .null
  builtin := .builtin
  array h := .array h.length_eq (getElem?_of_forall₂ h)
  map h := .map (EntryRel.keys_eq h) fun i x y hx hy => (getElem?_of_forall₂ h i x y hx hy).2

end Renamed

/-- **A renaming of the identities** that are given out one after the other. -/
structure Renaming where
  /-- What becomes of an identity. -/
  rename : Nat → Nat
  /-- Different identities stay different. -/
  injective : Function.Injective rename
  /-- The first identity that is still to be given out. -/
  since : Nat
  /-- From there on the identities follow each other on both sides. -/
  rename_succ : ∀ i, since ≤ i → rename (i + 1) = rename i + 1

/-- Nothing is renamed. -/
def Renaming.same (since : Nat) : Renaming := ⟨id, Function.injective_id, since, fun _ _ => rfl⟩

/-- **One identity is left out**, and those after it move up. -/
def Renaming.skip (left : Nat) : Renaming where
  rename i := if i < left then i else i + 1
  injective i j h := by
    dsimp only at h
    split at h <;> split at h <;> omega
  since := left
  rename_succ i h := by
    rw [if_neg (by omega), if_neg (by omega)]

/-- Whether a value can be a constant of a program: there are no closures in
it. -/
def Value.isConstant : Value → Bool
  | number _ | string _ | routine _ => true
  | _ => false

/-- There is nothing to rename in a constant. -/
theorem Renamed.of_isConstant {v : Value} (h : v.isConstant = true) (rename : Nat → Nat)
    (bound : Nat) : Renamed rename bound v v := by
  cases v with
  | number n => exact .number n
  | string s => exact .string s
  | routine body => exact .routine body
  | _ => cases h

end StackScript
