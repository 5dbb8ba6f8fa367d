import Mathlib.Data.List.Forall2
import StackScript.Machine.Operation

/-!
# Operations do not look into functions

Operators and builtin functions see the data in their operands, and of a
function they see no more than which one it is and how many parameters it has.
So a relation between values that keeps data as they are, and that tells
functions apart on one side whenever it does on the other, is kept by every
operation: from related operands come related results, or the same error on both
sides.

Such a relation is called `Structural`. The two sides may run different kinds of
bodies.
-/

namespace StackScript

/-- Lists are related one by one when what stands in one place is. -/
theorem forall₂_of_getElem? {α α' : Type} {R : α → α' → Prop} {xs : List α} {ys : List α'}
    (hlen : xs.length = ys.length)
    (h : ∀ (i : Nat) x y, xs[i]? = some x → ys[i]? = some y → R x y) : List.Forall₂ R xs ys := by
  refine List.forall₂_iff_get.2 ⟨hlen, fun i hxs hys => ?_⟩
  exact h i _ _ (List.getElem?_eq_getElem hxs) (List.getElem?_eq_getElem hys)

/-- Related lists are related at each index. -/
theorem getElem?_of_forall₂ {α α' : Type} {R : α → α' → Prop} {xs : List α} {ys : List α'}
    (h : List.Forall₂ R xs ys) (i : Nat) (x : α) (y : α') (hx : xs[i]? = some x)
    (hy : ys[i]? = some y) : R x y := by
  obtain ⟨hxs, rfl⟩ := List.getElem?_eq_some_iff.1 hx
  obtain ⟨hys, rfl⟩ := List.getElem?_eq_some_iff.1 hy
  exact h.get hxs hys

variable {β γ : Type} [Callable β] [Callable γ]

/-- Entries under the same keys with related values. -/
def EntryRel (R : Value β → Value γ → Prop) (x : Key × Value β) (y : Key × Value γ) : Prop :=
  x.1 = y.1 ∧ R x.2 y.2

omit [Callable β] [Callable γ] in
/-- Under one key there are related values, or none on both sides. -/
theorem EntryRel.find?_rel {R : Value β → Value γ → Prop} {xs : Entries (Value β)}
    {ys : Entries (Value γ)} (k : Key) (h : List.Forall₂ (EntryRel R) xs ys) :
    Option.Rel R (Entries.find? k xs) (Entries.find? k ys) := by
  induction h with
  | nil => exact .none
  | @cons x y xs ys hxy _ ih =>
    obtain ⟨key, v⟩ := x
    obtain ⟨key', w⟩ := y
    obtain ⟨rfl, hvw⟩ := hxy
    rw [Entries.find?, Entries.find?]
    split
    · exact .some hvw
    · exact ih

omit [Callable β] [Callable γ] in
/-- Entries are related one by one when their keys are the same and their values
are related. -/
theorem EntryRel.forall₂_of_getElem? {R : Value β → Value γ → Prop} {xs : Entries (Value β)}
    {ys : Entries (Value γ)} (hkeys : xs.map (·.1) = ys.map (·.1))
    (h : ∀ (i : Nat) x y, xs[i]? = some x → ys[i]? = some y → R x.2 y.2) :
    List.Forall₂ (EntryRel R) xs ys := by
  have hlen : xs.length = ys.length := by
    rw [← List.length_map, hkeys, List.length_map]
  refine StackScript.forall₂_of_getElem? hlen fun i x y hx hy => ⟨?_, h i x y hx hy⟩
  have hkey := congrArg (fun keys : List Key => keys[i]?) hkeys
  simpa [List.getElem?_map, hx, hy] using hkey

omit [Callable β] [Callable γ] in
/-- Related entries have the same keys in the same order. Maps are looked up by
their keys, so a look-up goes the same way on both sides. -/
theorem EntryRel.keys_eq {R : Value β → Value γ → Prop} {xs : Entries (Value β)}
    {ys : Entries (Value γ)} (h : List.Forall₂ (EntryRel R) xs ys) :
    xs.map (·.1) = ys.map (·.1) := by
  induction h with
  | nil => rfl
  | cons hxy _ ih => rw [List.map_cons, List.map_cons, ih, hxy.1]

/-- **Two values of one shape** whose parts are related. -/
inductive SameShape (R : Value β → Value γ → Prop) : Value β → Value γ → Prop where
  | number (n : Number) : SameShape R (.number n) (.number n)
  | boolean (b : Bool) : SameShape R (.boolean b) (.boolean b)
  | string (s : String) : SameShape R (.string s) (.string s)
  | null : SameShape R .null .null
  | array {xs : List (Value β)} {ys : List (Value γ)} :
      List.Forall₂ R xs ys → SameShape R (.array xs) (.array ys)
  | map {xs : List (Key × Value β)} {ys : List (Key × Value γ)} :
      List.Forall₂ (EntryRel R) xs ys → SameShape R (.map xs) (.map ys)
  | routine (body : Routine) : SameShape R (.routine body) (.routine body)
  | closure {i j : Nat} {body : β} {body' : γ} {captured : List (Value β)}
      {captured' : List (Value γ)} : Callable.params body = Callable.params body' →
      SameShape R (.closure i body captured) (.closure j body' captured')
  | builtin (b : Builtin) : SameShape R (.builtin b) (.builtin b)

/-- **A relation that operations cannot tell from equality.** -/
structure Structural (R : Value β → Value γ → Prop) : Prop where
  /-- Related values have one shape. -/
  shape : ∀ {v w}, R v w → SameShape R v w
  /-- Related functions are the same on one side when they are on the other. -/
  identity : ∀ {i i' j j' body body' captured captured' other other' values values'},
    R (.closure i body captured) (.closure i' body' captured') →
    R (.closure j other values) (.closure j' other' values') → (i = j ↔ i' = j')
  /-- A number is related to itself. -/
  number : ∀ n, R (.number n) (.number n)
  /-- So is a truth value. -/
  boolean : ∀ b, R (.boolean b) (.boolean b)
  /-- So is a string. -/
  string : ∀ s, R (.string s) (.string s)
  /-- So is null. -/
  null : R .null .null
  /-- So is a builtin function. -/
  builtin : ∀ b, R (.builtin b) (.builtin b)
  /-- Arrays of related items are related. -/
  array : ∀ {xs ys}, List.Forall₂ R xs ys → R (.array xs) (.array ys)
  /-- Maps of related entries are related. -/
  map : ∀ {xs ys}, List.Forall₂ (EntryRel R) xs ys → R (.map xs) (.map ys)

/-- Whether an error is one that values cause. The others come from code, from
the stack or from the budget. -/
def RuntimeError.ofValues : RuntimeError → Bool
  | typeMismatch .. | unknownOperator .. | unsupportedOperand .. | notAFunction .. | wrongArity ..
  | indexNotSupported .. | unusableAsKey .. | builtin .. => true
  | stackOverflow | stackUnderflow | unresolvedBuiltin .. | invalidCode .. | invalidOperand ..
  | budgetExhausted => false

/-- Results that are related, or the same error. -/
inductive ResultRel {α α' : Type} (R : α → α' → Prop) :
    Except RuntimeError α → Except RuntimeError α' → Prop where
  | ok {a : α} {b : α'} : R a b → ResultRel R (.ok a) (.ok b)
  | error {e : RuntimeError} : e.ofValues = true → ResultRel R (.error e) (.error e)

namespace Structural

variable {R : Value β → Value γ → Prop}

/-! ## What an operation sees of a value -/

/-- The type of a value is part of its shape. -/
theorem type_eq (hR : Structural R) {v : Value β} {w : Value γ} (h : R v w) : v.type = w.type := by
  cases hR.shape h <;> rfl

/-- So is whether a condition takes it for true. -/
theorem truthy_eq (hR : Structural R) {v : Value β} {w : Value γ} (h : R v w) :
    v.truthy = w.truthy := by
  cases hR.shape h <;> rfl

/-- So is the key that it makes in a map, if any. -/
theorem key?_eq (hR : Structural R) {v : Value β} {w : Value γ} (h : R v w) : v.key? = w.key? := by
  cases hR.shape h <;> rfl

mutual

/-- **Values are equal on one side if they are on the other.** Functions are
compared by which ones they are, and `Structural` asks that these agree. -/
theorem equal_eq (hR : Structural R) (v : Value β) {w : Value γ} {v' : Value β} {w' : Value γ}
    (h : R v w) (h' : R v' w') :
    v.equal v' = w.equal w' := by
  match v, w, hR.shape h, hR.shape h' with
  | .array xs, .array ys, .array hxs, hs' =>
    cases hs' with
    | array hxs' => rw [Value.equal, Value.equal, equalItems_eq hR xs hxs hxs']
    | _ => rfl
  | .map xs, .map ys, .map hxs, hs' =>
    cases hs' with
    | map hxs' =>
      rw [Value.equal, Value.equal, hxs.length_eq, hxs'.length_eq, equalEntries_eq hR xs hxs hxs']
    | _ => rfl
  | .closure .., .closure .., .closure _, hs' =>
    cases hs' with
    | closure _ =>
      rw [Value.equal, Value.equal, Bool.eq_iff_iff, beq_iff_eq, beq_iff_eq]
      exact hR.identity h h'
    | _ => rfl
  | .number _, .number _, .number _, hs' => cases hs' <;> rfl
  | .boolean _, .boolean _, .boolean _, hs' => cases hs' <;> rfl
  | .string _, .string _, .string _, hs' => cases hs' <;> rfl
  | .null, .null, .null, hs' => cases hs' <;> rfl
  | .routine _, .routine _, .routine _, hs' => cases hs' <;> rfl
  | .builtin _, .builtin _, .builtin _, hs' => cases hs' <;> rfl

/-- The same for the items of arrays. -/
theorem equalItems_eq (hR : Structural R) (xs : List (Value β)) {ys : List (Value γ)}
    {xs' : List (Value β)} {ys' : List (Value γ)} (h : List.Forall₂ R xs ys)
    (h' : List.Forall₂ R xs' ys') :
    Value.equalItems xs xs' = Value.equalItems ys ys' := by
  match xs, ys, h with
  | [], [], .nil => cases h' <;> rfl
  | x :: xs, y :: ys, .cons hx hxs =>
    cases h' with
    | nil => rfl
    | cons hx' hxs' =>
      rw [Value.equalItems, Value.equalItems, equal_eq hR x hx hx', equalItems_eq hR xs hxs hxs']

/-- The same for the entries of maps. -/
theorem equalEntries_eq (hR : Structural R) (xs : List (Key × Value β)) {ys : List (Key × Value γ)}
    {xs' : List (Key × Value β)} {ys' : List (Key × Value γ)}
    (h : List.Forall₂ (EntryRel R) xs ys) (h' : List.Forall₂ (EntryRel R) xs' ys') :
    Value.equalEntries xs xs' = Value.equalEntries ys ys' := by
  match xs, ys, h with
  | [], [], .nil => rw [Value.equalEntries, Value.equalEntries]
  | (key, x) :: xs, (_, y) :: ys, .cons ⟨rfl, hx⟩ hxs =>
    rw [Value.equalEntries, Value.equalEntries, equalEntries_eq hR xs hxs h']
    refine congrArg (· && _) ?_
    have hfind := EntryRel.find?_rel key h'
    cases hv : Entries.find? key xs' with
    | none =>
      rw [hv] at hfind
      cases hw : Entries.find? key ys' with
      | none => rfl
      | some w => rw [hw] at hfind; cases hfind
    | some v =>
      rw [hv] at hfind
      cases hw : Entries.find? key ys' with
      | none => rw [hw] at hfind; cases hfind
      | some w =>
        rw [hw] at hfind
        cases hfind with
        | some hvw => exact equal_eq hR x hx hvw

end

mutual

/-- **Values print the same.** Of a closure only its number of parameters is
shown. -/
theorem text_eq (hR : Structural R) (v : Value β) {w : Value γ} (h : R v w) : v.text = w.text := by
  match v, w, hR.shape h with
  | .array xs, .array ys, .array hxs => rw [Value.text, Value.text, itemTexts_eq hR xs hxs]
  | .map xs, .map ys, .map hxs => rw [Value.text, Value.text, entryTexts_eq hR xs hxs]
  | .closure .., .closure .., .closure hparams => rw [Value.text, Value.text, hparams]
  | .number _, .number _, .number _ => rfl
  | .boolean _, .boolean _, .boolean _ => rfl
  | .string _, .string _, .string _ => rfl
  | .null, .null, .null => rfl
  | .routine _, .routine _, .routine _ => rfl
  | .builtin _, .builtin _, .builtin _ => rfl

theorem itemTexts_eq (hR : Structural R) (xs : List (Value β)) {ys : List (Value γ)}
    (h : List.Forall₂ R xs ys) : Value.itemTexts xs = Value.itemTexts ys := by
  match xs, ys, h with
  | [], [], .nil => rfl
  | x :: xs, y :: ys, .cons hx hxs =>
    rw [Value.itemTexts, Value.itemTexts, text_eq hR x hx, itemTexts_eq hR xs hxs]

theorem entryTexts_eq (hR : Structural R) (xs : List (Key × Value β)) {ys : List (Key × Value γ)}
    (h : List.Forall₂ (EntryRel R) xs ys) : Value.entryTexts xs = Value.entryTexts ys := by
  match xs, ys, h with
  | [], [], .nil => rfl
  | (_, x) :: xs, (_, y) :: ys, .cons ⟨rfl, hx⟩ hxs =>
    rw [Value.entryTexts, Value.entryTexts, text_eq hR x hx, entryTexts_eq hR xs hxs]

end

/-! ## Operations -/

/-- A unary operator gives related results, or the same error. -/
theorem unary_rel (hR : Structural R) (op : UnaryOp) {v : Value β} {w : Value γ} (h : R v w) :
    ResultRel R (Value.unary op v) (Value.unary op w) := by
  cases op with
  | not =>
    rw [Value.unary, Value.unary, hR.truthy_eq h]
    exact .ok (hR.boolean _)
  | negate =>
    cases hR.shape h with
    | number n => exact .ok (hR.number _)
    | _ => exact .error rfl

/-- So does an operator on numbers, the error of which names the types of both
operands. -/
theorem numeric_rel (hR : Structural R) (op : BinaryOp) (f : Number → Number → Number)
    {v v' : Value β} {w w' : Value γ} (h : R v w) (h' : R v' w') :
    ResultRel R (Value.numeric op f v v') (Value.numeric op f w w') := by
  cases hR.shape h with
  | number a =>
    cases hR.shape h' with
    | number b => exact .ok (hR.number _)
    | _ => exact .error rfl
  | _ => cases hR.shape h' <;> exact .error rfl

/-- So does an addition, which also puts strings together. -/
theorem add_rel (hR : Structural R) {v v' : Value β} {w w' : Value γ} (h : R v w) (h' : R v' w') :
    ResultRel R (Value.add v v') (Value.add w w') := by
  cases hR.shape h with
  | number a =>
    cases hR.shape h' with
    | number b => exact .ok (hR.number _)
    | _ => exact .error rfl
  | string a =>
    cases hR.shape h' with
    | string b => exact .ok (hR.string _)
    | _ => exact .error rfl
  | _ => cases hR.shape h' <;> exact .error rfl

/-- So does a comparison. -/
theorem greater_rel (hR : Structural R) {v v' : Value β} {w w' : Value γ} (h : R v w)
    (h' : R v' w') : ResultRel R (Value.greater v v') (Value.greater w w') := by
  cases hR.shape h with
  | number a =>
    cases hR.shape h' with
    | number b => exact .ok (hR.boolean _)
    | _ => exact .error rfl
  | _ => cases hR.shape h' <;> exact .error rfl

/-- **A binary operator gives related results**, or the same error. Most of the
cases are about numbers; equality is the one that looks at all of both
values. -/
theorem binary_rel (hR : Structural R) (op : BinaryOp) {v v' : Value β} {w w' : Value γ}
    (h : R v w) (h' : R v' w') : ResultRel R (Value.binary op v v') (Value.binary op w w') := by
  cases op with
  | add => exact hR.add_rel h h'
  | sub | mul | div => exact hR.numeric_rel _ _ h h'
  | less => exact hR.greater_rel h' h
  | greater => exact hR.greater_rel h h'
  | equal | notEqual =>
    rw [Value.binary, Value.binary, equal_eq hR v h h']
    exact .ok (hR.boolean _)

omit [Callable β] [Callable γ] in
/-- What stands in one place of related lists is related. -/
theorem getElem?_rel {xs : List (Value β)} {ys : List (Value γ)} (h : List.Forall₂ R xs ys)
    (i : Nat) :
    Option.Rel R xs[i]? ys[i]? := by
  induction h generalizing i with
  | nil => exact .none
  | cons hx _ ih =>
    cases i with
    | zero => exact .some hx
    | succ i => exact ih i

omit [Callable β] [Callable γ] in
theorem getD_rel {x : Option (Value β)} {y : Option (Value γ)} (h : Option.Rel R x y)
    (hnull : R .null .null) : R (x.getD .null) (y.getD .null) := by
  cases h with
  | none => exact hnull
  | some h => exact h

/-- An index finds related values. Arrays are related item by item and maps
entry by entry. -/
theorem lookup_rel (hR : Structural R) {v v' : Value β} {w w' : Value γ} (h : R v w)
    (h' : R v' w') :
    ResultRel R (Value.lookup v v') (Value.lookup w w') := by
  cases hR.shape h with
  | array hxs =>
    cases hR.shape h' with
    | number n =>
      rw [Value.lookup, Value.lookup]
      split
      · exact .ok (getD_rel (getElem?_rel hxs _) hR.null)
      · exact .ok hR.null
    | _ => exact .error rfl
  | map hxs =>
    rw [Value.lookup, Value.lookup, hR.key?_eq h', hR.type_eq h']
    split
    · exact .ok (getD_rel (EntryRel.find?_rel _ hxs) hR.null)
    · exact .error rfl
  | _ => cases hR.shape h' <;> exact .error rfl

omit [Callable β] [Callable γ] in
/-- An entry is put in at the same place on both sides. -/
theorem insert_rel {xs : Entries (Value β)} {ys : Entries (Value γ)} (key : Key) {v : Value β}
    {w : Value γ} (h : List.Forall₂ (EntryRel R) xs ys) (hv : R v w) :
    List.Forall₂ (EntryRel R) (Entries.insert key v xs) (Entries.insert key w ys) := by
  induction h with
  | nil => exact .cons ⟨rfl, hv⟩ .nil
  | @cons x y xs ys hxy hrest ih =>
    rw [Entries.insert, Entries.insert, ← hxy.1]
    split
    · exact .cons ⟨rfl, hv⟩ hrest
    · exact .cons hxy ih

/-- A map is made of related keys and values in the same way. If a key is of no
use, the error is the same. -/
theorem insertAll_rel (hR : Structural R) {vs : List (Value β)} {ws : List (Value γ)}
    (h : List.Forall₂ R vs ws) {xs : Entries (Value β)} {ys : Entries (Value γ)}
    (hentries : List.Forall₂ (EntryRel R) xs ys) :
    ResultRel (List.Forall₂ (EntryRel R)) (Value.insertAll xs vs) (Value.insertAll ys ws) := by
  match vs, ws, h with
  | [], [], .nil => exact .ok hentries
  | [_], [_], .cons _ .nil => exact .ok hentries
  | key :: v :: vs, key' :: w :: ws, .cons hkey (.cons hv hrest) =>
    rw [Value.insertAll, Value.insertAll, hR.key?_eq hkey, hR.type_eq hkey]
    split
    · exact insertAll_rel hR hrest (insert_rel _ hentries hv)
    · exact .error rfl

/-- An array as an argument gives its items. -/
theorem items_rel (hR : Structural R) (b : Builtin) {v : Value β} {w : Value γ} (h : R v w) :
    ResultRel (List.Forall₂ R) (b.items v) (b.items w) := by
  cases hR.shape h with
  | array hxs => exact .ok hxs
  | _ => exact .error rfl

end Structural

/-- Related results remain so under functions that respect the relation. -/
theorem ResultRel.map {α α' δ δ' : Type} {R : α → α' → Prop} {S : δ → δ' → Prop}
    {x : Except RuntimeError α} {y : Except RuntimeError α'} (h : ResultRel R x y) {f : α → δ}
    {g : α' → δ'} (hfg : ∀ a b, R a b → S (f a) (g b)) : ResultRel S (x.map f) (y.map g) := by
  cases h with
  | ok h => exact .ok (hfg _ _ h)
  | error he => exact .error he

namespace Structural

variable {R : Value β → Value γ → Prop}

/-- A length is the same on both sides, as it is a number that depends on the
shape only. -/
theorem lengthOf_rel (hR : Structural R) {v : Value β} {w : Value γ} (h : R v w) :
    ResultRel R (Builtin.lengthOf v) (Builtin.lengthOf w) := by
  cases hR.shape h with
  | string s => exact .ok (hR.number _)
  | array hxs =>
    rw [Builtin.lengthOf, Builtin.lengthOf, hxs.length_eq]
    exact .ok (hR.number _)
  | map hxs =>
    rw [Builtin.lengthOf, Builtin.lengthOf, hxs.length_eq]
    exact .ok (hR.number _)
  | _ => exact .error rfl

omit [Callable β] [Callable γ] in
/-- A builtin function of one argument, related on single arguments. -/
theorem call_rel_of_single (b : Builtin) (hputs : b ≠ .puts) (hpush : b ≠ .push)
    (hsingle : ∀ v w, R v w → ResultRel R (b.call [v]) (b.call [w])) {vs : List (Value β)}
    {ws : List (Value γ)} (h : List.Forall₂ R vs ws) : ResultRel R (b.call vs) (b.call ws) := by
  match vs, ws, h with
  | [], [], .nil => cases b <;> first | exact .error rfl | contradiction
  | [v], [w], .cons hv .nil => exact hsingle v w hv
  | _ :: _ :: vs, _ :: _ :: ws, .cons _ (.cons _ hrest) =>
    have hlen := hrest.length_eq
    cases b with
    | puts | push => contradiction
    | len | first | last | rest =>
      simp only [Builtin.call, List.length_cons, hlen]
      exact .error rfl

/-- **Builtin functions** give related results for related arguments. -/
theorem call_rel (hR : Structural R) (b : Builtin) {vs : List (Value β)} {ws : List (Value γ)}
    (h : List.Forall₂ R vs ws) : ResultRel R (b.call vs) (b.call ws) := by
  cases b with
  | puts => exact .ok hR.null
  | len => exact call_rel_of_single .len nofun nofun (fun v w hv => hR.lengthOf_rel hv) h
  | first =>
    refine call_rel_of_single .first nofun nofun (fun v w hv => ?_) h
    refine (hR.items_rel .first hv).map fun xs ys hxs => ?_
    cases hxs with
    | nil => exact hR.null
    | cons hx _ => exact hx
  | last =>
    refine call_rel_of_single .last nofun nofun (fun v w hv => ?_) h
    refine (hR.items_rel .last hv).map fun xs ys hxs => ?_
    rw [List.getLast?_eq_getElem?, List.getLast?_eq_getElem?, hxs.length_eq]
    exact getD_rel (getElem?_rel hxs _) hR.null
  | rest =>
    refine call_rel_of_single .rest nofun nofun (fun v w hv => ?_) h
    refine (hR.items_rel .rest hv).map fun xs ys hxs => ?_
    cases hxs with
    | nil => exact hR.null
    | cons _ hrest => exact hR.array hrest
  | push =>
    match vs, ws, h with
    | [], [], .nil => exact .error rfl
    | [_], [_], .cons _ .nil => exact .error rfl
    | [v, x], [w, y], .cons hv (.cons hx .nil) =>
      refine (hR.items_rel .push hv).map fun xs ys hxs => ?_
      exact hR.array (List.rel_append hxs (.cons hx .nil))
    | _ :: _ :: _ :: vs, _ :: _ :: _ :: ws, .cons _ (.cons _ (.cons _ hrest)) =>
      have hlen := hrest.length_eq
      simp only [Builtin.call, List.length_cons, hlen]
      exact .error rfl

/-- What a builtin function writes depends on data alone. -/
theorem output_eq (hR : Structural R) (b : Builtin) {vs : List (Value β)} {ws : List (Value γ)}
    (h : List.Forall₂ R vs ws) : b.output vs = b.output ws := by
  cases b with
  | puts =>
    have htexts : (vs.map fun v => v.text ++ "\n") = ws.map fun w => w.text ++ "\n" := by
      induction h with
      | nil => rfl
      | cons hv _ ih => rw [List.map_cons, List.map_cons, ih, text_eq hR _ hv]
    rw [Builtin.output, Builtin.output, htexts]
  | _ => rfl

end Structural

end StackScript
