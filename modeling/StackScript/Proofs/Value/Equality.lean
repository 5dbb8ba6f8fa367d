import Mathlib.Data.List.Forall2
import Mathlib.Data.List.Perm.Subperm
import StackScript.Proofs.Number.Equality
import StackScript.Proofs.Value.Construction

/-!
# Equality of values

Programs compare values with `Value.equal`. It is symmetric and transitive, but
not reflexive: a NaN does not equal itself, and neither does whatever holds one
as an item or as a value under a key (`Value.HasNaN`). A NaN as a key does no
harm, since keys are not compared with `Value.equal`, and what a function
captured is not looked at.

Maps are compared in one direction only: they have to be of one length, and what
is under a key of the first has to be equal to what is under it in the second.
That this is symmetric rests on counting. It fails for lists of entries with a
key twice; the maps of programs are built by insertions (`Value.Built`) and have
none. For these the comparison says what one expects of it: the keys are the
same, in whatever order, and so are the values under them (`Entries.Agree`).

Two values that can be keys are equal exactly when they are looked up by the
same key, a NaN apart.
-/

namespace StackScript

variable {α β : Type}

namespace Entries

/-! ## Entries under distinct keys -/

/-- A look-up depends on the canonical form of the key only. -/
theorem find?_congr {k k' : Key} (h : k.canonical = k'.canonical) (entries : Entries α) :
    find? k entries = find? k' entries := by
  induction entries with
  | nil => rfl
  | cons entry rest ih => rw [find?, find?, ih, Key.same, Key.same, h]

/-- What is found is the value of an entry, the key of which need not be the
very key that was looked for: it may be the other zero. -/
theorem exists_mem_of_find? {k : Key} {v : α} {entries : Entries α} (h : find? k entries = some v) :
    ∃ key, (key, v) ∈ entries ∧ key.canonical = k.canonical := by
  induction entries with
  | nil => cases h
  | cons entry rest ih =>
    rw [find?] at h
    split at h
    case isTrue hkey =>
      cases h
      exact ⟨entry.1, List.mem_cons_self, (Key.same_iff.1 hkey).symm⟩
    case isFalse =>
      obtain ⟨key, hmem, hkey⟩ := ih h
      exact ⟨key, List.mem_cons_of_mem _ hmem, hkey⟩

/-- A key is among those of the entries exactly if something is found under
it. -/
theorem mem_keys_iff {k : Key} {entries : Entries α} :
    k.canonical ∈ entries.keys ↔ ∃ v, find? k entries = some v := by
  constructor
  · intro h
    induction entries with
    | nil => cases h
    | cons entry rest ih =>
      by_cases hkey : k.canonical = entry.1.canonical
      · exact ⟨entry.2, if_pos (Key.same_iff.2 hkey)⟩
      · obtain ⟨v, hv⟩ := ih ((List.mem_cons.1 h).resolve_left hkey)
        exact ⟨v, (if_neg (mt Key.same_iff.1 hkey)).trans hv⟩
  · rintro ⟨v, hv⟩
    obtain ⟨key, hmem, hkey⟩ := exists_mem_of_find? hv
    exact hkey ▸ mem_keys_of_mem hmem

/-- Under distinct keys each entry is found. -/
theorem Distinct.find?_of_mem {entries : Entries α} (h : entries.Distinct) {entry : Key × α}
    (hmem : entry ∈ entries) : find? entry.1 entries = some entry.2 := by
  induction entries with
  | nil => cases hmem
  | cons first rest ih =>
    obtain ⟨hfirst, hrest⟩ := List.nodup_cons.1 h
    rw [find?]
    rcases List.mem_cons.1 hmem with rfl | hmem
    · rw [if_pos (Key.same_iff.2 rfl)]
    · rw [if_neg, ih hrest hmem]
      intro hkey
      exact hfirst (List.mem_map.2 ⟨entry, hmem, Key.same_iff.1 hkey⟩)

/-- Each entry of the one has a related value under its key in the other. -/
def Found (R : α → α → Prop) (xs ys : Entries α) : Prop :=
  ∀ entry ∈ xs, ∃ y, find? entry.1 ys = some y ∧ R entry.2 y

/-- If no key is there twice, entries are found among themselves when each value
is related to itself. This is the step for maps when reflexivity is shown. -/
theorem Distinct.found_self_iff {R : α → α → Prop} {entries : Entries α} (h : entries.Distinct) :
    Found R entries entries ↔ ∀ entry ∈ entries, R entry.2 entry.2 := by
  refine forall₂_congr fun entry hentry => ?_
  simp only [h.find?_of_mem hentry, Option.some_inj, exists_eq_left']

/-- **The same keys, and related values under each.** -/
structure Agree (R : α → α → Prop) (xs ys : Entries α) : Prop where
  /-- Their keys are the same. -/
  keys : ∀ k, k ∈ xs.keys ↔ k ∈ ys.keys
  /-- What is under a key in both is related. -/
  values : ∀ k x y, find? k xs = some x → find? k ys = some y → R x y

/-- Distinct keys that are found among as many are all that there are. -/
theorem Found.keys_perm {R : α → α → Prop} {xs ys : Entries α} (h : Found R xs ys)
    (hxs : xs.Distinct) (hlen : xs.length = ys.length) : xs.keys.Perm ys.keys := by
  have hsubset : xs.keys ⊆ ys.keys := by
    intro k hk
    obtain ⟨entry, hentry, rfl⟩ := List.mem_map.1 hk
    obtain ⟨y, hy, -⟩ := h entry hentry
    exact mem_keys_iff.2 ⟨y, hy⟩
  refine (hxs.subperm hsubset).perm_of_length_le ?_
  rw [keys, keys, List.length_map, List.length_map, hlen]

/-- **Under distinct keys, one direction is enough** if the entries are as
many. -/
theorem agree_iff {R : α → α → Prop} {xs ys : Entries α} (hxs : xs.Distinct) (hys : ys.Distinct) :
    xs.length = ys.length ∧ Found R xs ys ↔ Agree R xs ys := by
  constructor
  · rintro ⟨hlen, h⟩
    refine ⟨fun k => (h.keys_perm hxs hlen).mem_iff, fun k x y hx hy => ?_⟩
    obtain ⟨key, hmem, hkey⟩ := exists_mem_of_find? hx
    obtain ⟨y', hy', hR⟩ := h _ hmem
    rw [find?_congr hkey, hy] at hy'
    cases hy'
    exact hR
  · intro h
    have hperm : xs.keys.Perm ys.keys := (List.perm_ext_iff_of_nodup hxs hys).2 h.keys
    refine ⟨?_, fun entry hentry => ?_⟩
    · have hlen := hperm.length_eq
      rwa [keys, keys, List.length_map, List.length_map] at hlen
    · obtain ⟨y, hy⟩ := mem_keys_iff.1 ((h.keys _).1 (mem_keys_of_mem hentry))
      exact ⟨y, hy, h.values _ _ _ (hxs.find?_of_mem hentry) hy⟩

end Entries

namespace Value

open Entries

/-! ## What equality compares -/

/-- Arrays are compared item by item. -/
theorem equalItems_iff {xs ys : List (Value β)} :
    equalItems xs ys = true ↔ List.Forall₂ (fun x y => x.equal y = true) xs ys := by
  induction xs generalizing ys with
  | nil => cases ys <;> simp [equalItems]
  | cons x xs ih => cases ys <;> simp [equalItems, ih]

/-- Maps are compared by looking the entries of the first up in the second. -/
theorem equalEntries_iff {xs ys : Entries (Value β)} :
    equalEntries xs ys = true ↔ Found (fun x y => x.equal y = true) xs ys := by
  induction xs with
  | nil => simp [equalEntries, Found]
  | cons entry xs ih =>
    rw [equalEntries, Bool.and_eq_true, ih, Found, Found, List.forall_mem_cons]
    refine and_congr_left fun _ => ?_
    cases Entries.find? entry.1 ys <;> simp

/-- **What makes two values equal**: they are of one shape and have equal
parts. -/
inductive EqualParts : Value β → Value β → Prop where
  | number {a b : Number} : a.equal b = true → EqualParts (number a) (number b)
  | boolean (b : Bool) : EqualParts (boolean b) (boolean b)
  | string (s : String) : EqualParts (string s) (string s)
  | null : EqualParts null null
  | array {xs ys : List (Value β)} :
      List.Forall₂ (fun x y => x.equal y = true) xs ys → EqualParts (array xs) (array ys)
  | map {xs ys : List (Key × Value β)} : xs.length = ys.length →
      Found (fun x y => x.equal y = true) xs ys → EqualParts (map xs) (map ys)
  | routine {a b : Routine} : a.identity = b.identity → EqualParts (routine a) (routine b)
  | closure (i : Nat) (body body' : β) (captured captured' : List (Value β)) :
      EqualParts (closure i body captured) (closure i body' captured')
  | builtin (b : Builtin) : EqualParts (builtin b) (builtin b)

/-- **Equality of values, by their shape.** The proofs below go by induction on
this relation instead of the recursion of `Value.equal`. -/
theorem equal_iff_parts {a b : Value β} : a.equal b = true ↔ EqualParts a b := by
  constructor
  · intro h
    cases a <;> cases b <;> try exact absurd h Bool.false_ne_true
    case number.number => exact .number h
    case boolean.boolean => exact beq_iff_eq.1 h ▸ .boolean _
    case string.string => exact beq_iff_eq.1 h ▸ .string _
    case null.null => exact .null
    case array.array => exact .array (equalItems_iff.1 h)
    case map.map =>
      obtain ⟨hlen, hentries⟩ := Bool.and_eq_true_iff.1 h
      exact .map (beq_iff_eq.1 hlen) (equalEntries_iff.1 hentries)
    case routine.routine => exact .routine (beq_iff_eq.1 h)
    case closure.closure => exact beq_iff_eq.1 h ▸ .closure ..
    case builtin.builtin => exact beq_iff_eq.1 h ▸ .builtin _
  · intro h
    cases h with
    | number h => exact h
    | boolean | string | closure | builtin => exact beq_self_eq_true _
    | null => rfl
    | array h => exact equalItems_iff.2 h
    | map hlen h => exact Bool.and_eq_true_iff.2 ⟨beq_iff_eq.2 hlen, equalEntries_iff.2 h⟩
    | routine h => exact beq_iff_eq.2 h

/-! ## Laws -/

/-- **A value whose maps are built by insertions**, at any depth. What a closure
captured does not matter to its equality, so nothing is asked of it. -/
inductive Built : Value β → Prop where
  | number (n : Number) : Built (number n)
  | boolean (b : Bool) : Built (boolean b)
  | string (s : String) : Built (string s)
  | null : Built null
  | array {items : List (Value β)} : (∀ v ∈ items, Built v) → Built (array items)
  | map (calls : List (Value β × Value β)) :
      (∀ entry ∈ putAll calls [], Built entry.2) → Built (map (putAll calls []))
  | routine (body : Routine) : Built (routine body)
  | closure (identity : Nat) (body : β) (captured : List (Value β)) :
      Built (closure identity body captured)
  | builtin (b : Builtin) : Built (builtin b)

/-- **A NaN occurs in a value**: it is one, or it has one as an item or under a
key, at any depth. -/
inductive HasNaN : Value β → Prop where
  | number {n : Number} : n.isNaN = true → HasNaN (number n)
  | array {items : List (Value β)} {v : Value β} : v ∈ items → HasNaN v → HasNaN (array items)
  | map {entries : List (Key × Value β)} {entry : Key × Value β} :
      entry ∈ entries → HasNaN entry.2 → HasNaN (map entries)

/-- A map that was built by insertions has no key twice. -/
theorem Built.distinct {entries : Entries (Value β)} (h : (Value.map entries).Built) :
    entries.Distinct := by
  cases h with
  | map calls => exact (builtBy_putAll calls).distinct

/-- **Maps that programs build are equal if they agree**: they have the same
keys, with equal values under each. -/
theorem equal_map_iff {xs ys : Entries (Value β)} (hxs : (map xs).Built) (hys : (map ys).Built) :
    (map xs).equal (map ys) = true ↔ Agree (fun x y => x.equal y = true) xs ys := by
  rw [← agree_iff hxs.distinct hys.distinct, equal, Bool.and_eq_true, beq_iff_eq, equalEntries_iff]

/-- Equality is symmetric. -/
theorem Built.equal_symm {a b : Value β} (ha : a.Built) (h : a.equal b = true) :
    b.equal a = true := by
  induction ha generalizing b with
  | array hitems ih =>
    cases equal_iff_parts.1 h with
    | array hxs =>
      have hboth := (List.forall₂_and_left _ _).2 ⟨ih, hxs⟩
      exact equal_iff_parts.2 (.array (hboth.flip.imp fun y x hxy => hxy.1 hxy.2))
  | map calls hentries ih =>
    cases equal_iff_parts.1 h with
    | @map _ ys hlen hfound =>
      -- As many entries, with all these keys among them: so the others have distinct keys too.
      have hdistinct := (builtBy_putAll calls).distinct
      have hdistinct' : Entries.Distinct ys :=
        (hfound.keys_perm hdistinct hlen).nodup_iff.1 hdistinct
      have hagree := (agree_iff hdistinct hdistinct').1 ⟨hlen, hfound⟩
      have hagree' : Agree (fun x y => x.equal y = true) ys (putAll calls []) := by
        refine ⟨fun k => (hagree.keys k).symm, fun k y x hy hx => ?_⟩
        obtain ⟨key, hmem, -⟩ := exists_mem_of_find? hx
        exact ih _ hmem (hagree.values k x y hx hy)
      obtain ⟨hlen', hfound'⟩ := (agree_iff hdistinct' hdistinct).2 hagree'
      exact equal_iff_parts.2 (.map hlen' hfound')
  | number n =>
    cases equal_iff_parts.1 h with
    | number hn =>
      rw [Number.equal_iff] at hn
      exact equal_iff_parts.2 (.number ((Number.equal_iff _ _).2 ⟨hn.2 ▸ hn.1, hn.2.symm⟩))
  | routine body =>
    cases equal_iff_parts.1 h with
    | routine hidentity => exact equal_iff_parts.2 (.routine hidentity.symm)
  | closure identity body captured =>
    cases equal_iff_parts.1 h with
    | closure _ _ body' _ captured' => exact equal_iff_parts.2 (.closure ..)
  | boolean | string | null | builtin =>
    cases equal_iff_parts.1 h
    exact h

/-- The operands of an equality can be exchanged, for values that programs
build. -/
theorem Built.equal_comm {a b : Value β} (ha : a.Built) (hb : b.Built) :
    a.equal b = b.equal a :=
  Bool.eq_iff_iff.2 ⟨ha.equal_symm, hb.equal_symm⟩

/-- The values in a map that was built are built themselves. -/
theorem Built.of_mem {entries : Entries (Value β)} (h : (Value.map entries).Built)
    {entry : Key × Value β} (hentry : entry ∈ entries) : entry.2.Built := by
  cases h with
  | map calls hentries => exact hentries entry hentry

/-- **Either of two maps may come first in the comparison of their values.** The
definition compares the value of the first map with the one that is found in the
second. A comparison of what is found with the value that it was looked up for
comes to the same, for the maps that programs build. -/
theorem Built.equal_map_eq {xs ys : Entries (Value β)} (hxs : (Value.map xs).Built)
    (hys : (Value.map ys).Built) :
    (Value.map xs).equal (.map ys) = (xs.length == ys.length &&
      xs.all fun entry => (Entries.find? entry.1 ys).any fun y => y.equal entry.2) := by
  rw [equal, Bool.eq_iff_iff, Bool.and_eq_true, Bool.and_eq_true, equalEntries_iff,
    List.all_eq_true, Found]
  refine and_congr_right fun _ => forall₂_congr fun entry hentry => ?_
  rw [Option.any_eq_true]
  refine exists_congr fun y => and_congr_right fun hy => ?_
  obtain ⟨key, hmem, -⟩ := exists_mem_of_find? hy
  rw [(hxs.of_mem hentry).equal_comm (hys.of_mem hmem)]

/-- Lists whose items are related one by one, where the relation is transitive
on the first of them. -/
theorem forall₂_trans {R : α → α → Prop} {xs ys zs : List α}
    (h : ∀ x ∈ xs, ∀ {y z}, R x y → R y z → R x z) (hxy : List.Forall₂ R xs ys)
    (hyz : List.Forall₂ R ys zs) : List.Forall₂ R xs zs := by
  induction hxy generalizing zs with
  | nil =>
    cases hyz
    exact .nil
  | cons hx _ ih =>
    cases hyz with
    | cons hy hrest =>
      obtain ⟨hfirst, h⟩ := List.forall_mem_cons.1 h
      exact .cons (hfirst hx hy) (ih h hrest)

/-- Equality is transitive. -/
theorem Built.equal_trans {a b c : Value β} (ha : a.Built) (hab : a.equal b = true)
    (hbc : b.equal c = true) :
    a.equal c = true := by
  induction ha generalizing b c with
  | array hitems ih =>
    cases equal_iff_parts.1 hab with
    | array hxs =>
      cases equal_iff_parts.1 hbc with
      | array hys => exact equal_iff_parts.2 (.array (forall₂_trans ih hxs hys))
  | map calls hentries ih =>
    cases equal_iff_parts.1 hab with
    | map hlen hfound =>
      cases equal_iff_parts.1 hbc with
      | map hlen' hfound' =>
        refine equal_iff_parts.2 (.map (hlen.trans hlen') fun entry hentry => ?_)
        obtain ⟨y, hy, hxy⟩ := hfound entry hentry
        -- What was found in the second map is one of its entries, and is looked
        -- up in the third.
        obtain ⟨key, hmem, hkey⟩ := exists_mem_of_find? hy
        obtain ⟨z, hz, hyz⟩ := hfound' _ hmem
        exact ⟨z, find?_congr hkey _ ▸ hz, ih entry hentry hxy hyz⟩
  | number n =>
    cases equal_iff_parts.1 hab with
    | number hn =>
      cases equal_iff_parts.1 hbc with
      | number hn' =>
        rw [Number.equal_iff] at hn hn'
        exact equal_iff_parts.2 (.number ((Number.equal_iff _ _).2 ⟨hn.1, hn.2.trans hn'.2⟩))
  | routine body =>
    cases equal_iff_parts.1 hab with
    | routine hidentity =>
      cases equal_iff_parts.1 hbc with
      | routine hidentity' => exact equal_iff_parts.2 (.routine (hidentity.trans hidentity'))
  | closure identity body captured =>
    cases equal_iff_parts.1 hab with
    | closure =>
      cases equal_iff_parts.1 hbc with
      | closure => exact equal_iff_parts.2 (.closure ..)
  | boolean | string | null | builtin =>
    cases equal_iff_parts.1 hab
    exact hbc

@[simp] theorem hasNaN_number {n : Number} : (number n : Value β).HasNaN ↔ n.isNaN = true := by
  refine ⟨fun h => ?_, .number⟩
  cases h with
  | number h => exact h

@[simp] theorem hasNaN_array {items : List (Value β)} :
    (array items).HasNaN ↔ ∃ v ∈ items, v.HasNaN := by
  constructor
  · intro h
    cases h with
    | array hv h => exact ⟨_, hv, h⟩
  · rintro ⟨v, hv, h⟩
    exact .array hv h

@[simp] theorem hasNaN_map {entries : List (Key × Value β)} :
    (map entries).HasNaN ↔ ∃ entry ∈ entries, entry.2.HasNaN := by
  constructor
  · intro h
    cases h with
    | map hentry h => exact ⟨_, hentry, h⟩
  · rintro ⟨entry, hentry, h⟩
    exact .map hentry h

/-- What equals itself is what no NaN occurs in. -/
theorem Built.equal_self_iff {v : Value β} (h : v.Built) : v.equal v = true ↔ ¬v.HasNaN := by
  induction h with
  | number n =>
    rw [hasNaN_number, equal, Number.equal_iff, ne_eq, Number.meaning_eq_nan_iff]
    exact and_iff_left rfl
  | array hitems ih =>
    rw [hasNaN_array, equal, equalItems_iff, List.forall₂_same, not_exists]
    exact forall_congr' fun v => (forall_congr' (ih v)).trans not_and.symm
  | map calls hentries ih =>
    rw [hasNaN_map, equal, Bool.and_eq_true, beq_iff_eq, equalEntries_iff,
      (builtBy_putAll calls).distinct.found_self_iff, not_exists]
    refine (and_iff_right rfl).trans ?_
    exact forall_congr' fun entry => (forall_congr' (ih entry)).trans not_and.symm
  | null =>
    refine iff_of_true rfl fun h => ?_
    cases h
  | routine | closure | boolean | string | builtin =>
    refine iff_of_true (beq_self_eq_true _) fun h => ?_
    cases h

/-! ## Equality of keys -/

/-- Equal values are looked up by the same key, if they can be keys. -/
theorem hashKey?_of_equal {a b : Value β} (h : a.equal b = true) : a.hashKey? = b.hashKey? := by
  cases equal_iff_parts.1 h with
  | @number x y h =>
    have hcanonical : x.canonical = y.canonical := beq_iff_eq.1 (Bool.and_eq_true_iff.1 h).2
    exact congrArg (fun n => some (Key.number n)) hcanonical
  | _ => rfl

/-- Equal values are of one type. -/
theorem type_of_equal {a b : Value β} (h : a.equal b = true) : a.type = b.type := by
  cases equal_iff_parts.1 h <;> rfl

/-- Two keys that are the same are equal values, if they are not NaN. -/
theorem equal_of_hashKey? {a b : Value β} {k : Key} (ha : a.hashKey? = some k)
    (hb : b.hashKey? = some k) (hnan : ¬a.HasNaN) : a.equal b = true := by
  obtain ⟨x, hx, rfl⟩ := Option.map_eq_some_iff.1 ha
  obtain ⟨y, hy, hxy⟩ := Option.map_eq_some_iff.1 hb
  rw [← ofKey_of_key? hx] at hnan ⊢
  rw [← ofKey_of_key? hy]
  cases x with
  | number n =>
    cases y with
    | number n' =>
      have hcanonical : n.canonical = n'.canonical := (Key.number.inj hxy).symm
      rw [ofKey, hasNaN_number, Bool.not_eq_true] at hnan
      show (!n.isNaN && n.canonical == n'.canonical) = true
      rw [hnan, hcanonical, beq_self_eq_true]
      rfl
    | boolean | string => cases hxy
  | boolean =>
    cases y with
    | boolean =>
      cases hxy
      exact beq_self_eq_true _
    | number | string => cases hxy
  | string =>
    cases y with
    | string =>
      cases hxy
      exact beq_self_eq_true _
    | number | boolean => cases hxy

/-- Equal values find the same in every map. -/
theorem lookup_of_equal {a b : Value β} (h : a.equal b = true) (entries : Entries (Value β)) :
    lookup (map entries) a = lookup (map entries) b := by
  have hhash := hashKey?_of_equal h
  rw [lookup, lookup, type_of_equal h]
  unfold hashKey? at hhash
  cases ha : a.key? with
  | none =>
    rw [ha, Option.map_none, eq_comm, Option.map_eq_none_iff] at hhash
    rw [hhash]
  | some k =>
    rw [ha, Option.map_some, eq_comm, Option.map_eq_some_iff] at hhash
    obtain ⟨k', hb, hkey⟩ := hhash
    rw [hb]
    show Except.ok ((find? k entries).getD null) = Except.ok ((find? k' entries).getD null)
    rw [find?_congr hkey]

/-- **Equality of values** is a partial equivalence, and agrees with the keys of
maps:

* it is symmetric and transitive;
* a value equals itself exactly if no NaN occurs in it;
* two maps are equal exactly if they have the same keys and equal values under
  them, in whatever order their entries are;
* two values that can be keys, and that are not NaN, are equal exactly if they
  are looked up by the same key, and equal values find the same in every map;
* numbers are equal if they stand for the same number, and functions if they are
  the same function, whatever they captured. -/
theorem equality_is_partial_equivalence :
    (∀ a b : Value β, a.Built → a.equal b = true → b.equal a = true) ∧
    (∀ a b c : Value β, a.Built → a.equal b = true → b.equal c = true → a.equal c = true) ∧
    (∀ v : Value β, v.Built → (v.equal v = true ↔ ¬v.HasNaN)) ∧
    (∀ xs ys : Entries (Value β), (map xs).Built → (map ys).Built →
      ((map xs).equal (map ys) = true ↔ Agree (fun x y => x.equal y = true) xs ys)) ∧
    (∀ (a b : Value β) (k k' : Key), a.hashKey? = some k → b.hashKey? = some k' →
      ¬a.HasNaN → ¬b.HasNaN → (a.equal b = true ↔ k = k')) ∧
    (∀ (a b : Value β) (entries : Entries (Value β)), a.equal b = true →
      lookup (map entries) a = lookup (map entries) b) ∧
    (∀ a b : Number, (number a : Value β).equal (number b) = true ↔
      a.meaning ≠ .nan ∧ a.meaning = b.meaning) ∧
    (∀ a b : Routine, (routine a : Value β).equal (routine b) = true ↔ a.identity = b.identity) ∧
    ∀ (i j : Nat) (body body' : β) (captured captured' : List (Value β)),
      (closure i body captured).equal (closure j body' captured') = true ↔ i = j := by
  refine ⟨fun a b ha => ha.equal_symm, fun a b c ha => ha.equal_trans,
    fun v hv => hv.equal_self_iff, fun xs ys => equal_map_iff,
    fun a b k k' ha hb hnan _ => ⟨fun h => ?_, ?_⟩,
    fun a b entries h => lookup_of_equal h entries, Number.equal_iff, fun _ _ => beq_iff_eq,
    fun _ _ _ _ _ _ => beq_iff_eq⟩
  · have hhash := hashKey?_of_equal h
    rwa [ha, hb, Option.some_inj] at hhash
  · rintro rfl
    exact equal_of_hashKey? ha hb hnan

/-- The insertions of a map with zero as its last key. -/
def zeroLast : List (Value × Value) :=
  [(.string "a", .array [.null]), (.number .zero, .boolean true)]

/-- The same with the negative zero, in the other order. -/
def zeroFirst : List (Value × Value) :=
  [(.number Number.zero.neg, .boolean true), (.string "a", .array [.null])]

/-- The insertion under a NaN. -/
def underNaN : List (Value × Value) := [(.number ⟨0x7ff8000000000000⟩, .null)]

/-- Maps built in different orders, under different zeros, are equal both ways.
A NaN makes an array differ from itself, but not the map that has it as a
key. -/
theorem equality_is_partial_equivalence_zeros :
    (map (putAll zeroLast [])).equal (map (putAll zeroFirst [])) = true ∧
      (map (putAll zeroFirst [])).equal (map (putAll zeroLast [])) = true ∧
      ¬(array [number ⟨0x7ff8000000000000⟩] : Value).equal
          (array [number ⟨0x7ff8000000000000⟩]) = true ∧
      (map (putAll underNaN [])).equal (map (putAll underNaN [])) = true := by
  obtain ⟨hsymm, -, hself, -⟩ := equality_is_partial_equivalence (β := Routine)
  have hlast : (map (putAll zeroLast [])).Built := by
    refine .map zeroLast ?_
    show ∀ entry ∈ [(Key.string "a", array [null]), (Key.number .zero, boolean true)], entry.2.Built
    simp only [List.forall_mem_cons]
    exact ⟨.array (List.forall_mem_singleton.2 .null), .boolean true, List.forall_mem_nil _⟩
  have hequal : (map (putAll zeroLast [])).equal (map (putAll zeroFirst [])) = true := by
    decide +kernel
  have hnan : (array [number ⟨0x7ff8000000000000⟩] : Value).HasNaN :=
    .array List.mem_cons_self (.number (by decide))
  have hkey : ∀ entry ∈ putAll underNaN [], entry.2 = null := List.forall_mem_singleton.2 rfl
  refine ⟨hequal, hsymm _ _ hlast hequal, fun h => (hself _ (.array ?_)).1 h hnan,
    (hself _ (.map _ ?_)).2 ?_⟩
  · exact List.forall_mem_singleton.2 (.number _)
  · intro entry hentry
    exact hkey entry hentry ▸ .null
  · rw [hasNaN_map]
    rintro ⟨entry, hentry, h⟩
    rw [hkey entry hentry] at h
    cases h

end Value

end StackScript
