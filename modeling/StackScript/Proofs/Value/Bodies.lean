import StackScript.Proofs.Value.Congruence

/-!
# The bodies of the functions in a value

There may be functions in a value: routines and closures, also among the items
of arrays and maps and among what closures have captured. `Value.Bodies` says
that the bodies of all of them meet a condition.

Operators and builtin functions make no functions, so what they make of such
values is such a value. This needs no proof of its own for each operation: the
values with the property are related to themselves, and that relation is
structural.
-/

namespace StackScript

/-- **The bodies of all functions in a value meet a condition.** -/
inductive Value.Bodies (P : Routine → Prop) : Value → Prop where
  | number (n : Number) : Bodies P (.number n)
  | boolean (b : Bool) : Bodies P (.boolean b)
  | string (s : String) : Bodies P (.string s)
  | null : Bodies P .null
  | builtin (b : Builtin) : Bodies P (.builtin b)
  | array {xs : List Value} : (∀ v ∈ xs, Bodies P v) → Bodies P (.array xs)
  | map {xs : List (Key × Value)} : (∀ x ∈ xs, Bodies P x.2) → Bodies P (.map xs)
  | routine {body : Routine} : P body → Bodies P (.routine body)
  | closure {identity : Nat} {body : Routine} {captured : List Value} : P body →
      (∀ v ∈ captured, Bodies P v) → Bodies P (.closure identity body captured)

namespace Value.Bodies

variable {P : Routine → Prop} {v w : Value} {vs : List Value}

/-- The same value on both sides, with the property. -/
def Same (P : Routine → Prop) (v w : Value) : Prop := v = w ∧ v.Bodies P

/-- Values with the property are related to themselves. With the next two lemmas
this is the way into the relation and back. -/
theorem forall₂_same (h : ∀ v ∈ vs, v.Bodies P) : List.Forall₂ (Same P) vs vs :=
  List.forall₂_same.2 fun v hv => ⟨rfl, h v hv⟩

/-- Values that are related in this way are the same, and have the property. -/
theorem eq_of_forall₂ {ws : List Value} (h : List.Forall₂ (Same P) vs ws) :
    vs = ws ∧ ∀ v ∈ vs, v.Bodies P := by
  induction h with
  | nil => exact ⟨rfl, nofun⟩
  | cons hv _ ih =>
    obtain ⟨rfl, hv⟩ := hv
    obtain ⟨rfl, hvs⟩ := ih
    exact ⟨rfl, List.forall_mem_cons.2 ⟨hv, hvs⟩⟩

/-- So it is with entries. -/
theorem eq_of_forall₂_entries {xs ys : List (Key × Value)}
    (h : List.Forall₂ (EntryRel (Same P)) xs ys) : xs = ys ∧ ∀ x ∈ xs, x.2.Bodies P := by
  induction h with
  | nil => exact ⟨rfl, nofun⟩
  | cons hx _ ih =>
    obtain ⟨hkey, hvalue, hx⟩ := hx
    obtain ⟨rfl, hxs⟩ := ih
    exact ⟨congrArg (· :: _) (Prod.ext hkey hvalue), List.forall_mem_cons.2 ⟨hx, hxs⟩⟩

/-- **Operations cannot tell a value from itself.** -/
theorem structural (P : Routine → Prop) : Structural (Same P) where
  shape h := by
    obtain ⟨rfl, h⟩ := h
    cases h with
    | number n => exact .number n
    | boolean b => exact .boolean b
    | string s => exact .string s
    | null => exact .null
    | builtin b => exact .builtin b
    | routine => exact .routine _
    | array hxs => exact .array (forall₂_same hxs)
    | map hxs => exact .map (List.forall₂_same.2 fun x hx => ⟨rfl, rfl, hxs x hx⟩)
    | closure => exact .closure rfl
  identity h h' := by
    cases h.1
    cases h'.1
    rfl
  number n := ⟨rfl, .number n⟩
  boolean b := ⟨rfl, .boolean b⟩
  string s := ⟨rfl, .string s⟩
  null := ⟨rfl, .null⟩
  builtin b := ⟨rfl, .builtin b⟩
  array h := ⟨congrArg _ (eq_of_forall₂ h).1, .array (eq_of_forall₂ h).2⟩
  map h := ⟨congrArg _ (eq_of_forall₂_entries h).1, .map (eq_of_forall₂_entries h).2⟩

/-! ## Operations -/

/-- What comes of an operation that cannot tell its operands from themselves. -/
theorem of_resultRel {x : Except RuntimeError Value} (h : ResultRel (Same P) x x) {r : Value}
    (hr : x = .ok r) : r.Bodies P := by
  rw [hr] at h
  cases h with
  | ok h => exact h.2

/-- **No operation makes functions.** This is the case of unary operators; each
of the cases is one of a structural relation. -/
theorem unary (op : UnaryOp) (h : v.Bodies P) {r : Value} (hr : Value.unary op v = .ok r) :
    r.Bodies P :=
  of_resultRel ((structural P).unary_rel op ⟨rfl, h⟩) hr

/-- Binary operators give nothing but what is in their operands. -/
theorem binary (op : BinaryOp) (hv : v.Bodies P) (hw : w.Bodies P) {r : Value}
    (hr : Value.binary op v w = .ok r) : r.Bodies P :=
  of_resultRel ((structural P).binary_rel op ⟨rfl, hv⟩ ⟨rfl, hw⟩) hr

/-- What is found at an index was in the array or map. -/
theorem lookup (hv : v.Bodies P) (hw : w.Bodies P) {r : Value} (hr : Value.lookup v w = .ok r) :
    r.Bodies P :=
  of_resultRel ((structural P).lookup_rel ⟨rfl, hv⟩ ⟨rfl, hw⟩) hr

/-- A builtin function gives back what is in its arguments. -/
theorem call (b : Builtin) (h : ∀ v ∈ vs, v.Bodies P) {r : Value} (hr : b.call vs = .ok r) :
    r.Bodies P :=
  of_resultRel ((structural P).call_rel b (forall₂_same h)) hr

/-- A map has the functions of its keys and values. -/
theorem insertAll (h : ∀ v ∈ vs, v.Bodies P) {entries : List (Key × Value)}
    (hr : Value.insertAll [] vs = .ok entries) : (Value.map entries).Bodies P := by
  have hrel := (structural P).insertAll_rel (forall₂_same h) .nil
  rw [hr] at hrel
  cases hrel with
  | ok h => exact .map (eq_of_forall₂_entries h).2

end Value.Bodies

end StackScript
