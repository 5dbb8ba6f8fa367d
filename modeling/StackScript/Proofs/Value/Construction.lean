import Mathlib.Data.Finset.Card
import StackScript.Machine.Step
import StackScript.Proofs.Machine.Stack

/-!
# How maps come about

A map is what insertions make of no entries, one after another
(`Entries.putAll`). What it shows in the end is said here in terms of the
insertions alone, each a key with a value. Three things have to be told apart
where a key is inserted more than once: the *place* of its entry is that of its
first insertion, and both the *key* that is shown and the *value* are those of
its last. The key counts too: the two zeros are one key, and are not shown
alike.

* `Entries.hashKeys` lists the keys as they are inserted. Without repetitions
  (`List.eraseDups` keeps the first occurrence of each) it is the order of the
  entries.
* `Entries.last?` is the last insertion under a key.

`Entries.BuiltBy` is what holds after each insertion. The instruction that makes
a map pops its operands as one block and takes keys and values in turns
(`Entries.inTurns`), so that it makes the same map as these insertions, unless
one of the keys can be none.
-/

namespace StackScript

variable {α β : Type}

namespace Key

/-- Two keys are the same if they have one canonical form, in which the two
zeros are one. -/
@[simp] theorem same_iff {a b : Key} : a.same b = true ↔ a.canonical = b.canonical :=
  decide_eq_true_iff

end Key

/-- The key of a value, as a value, is this value. -/
theorem Value.ofKey_of_key? {v : Value β} {k : Key} (h : v.key? = some k) : Value.ofKey k = v := by
  cases v <;> cases h <;> rfl

namespace Entries

/-! ## One insertion -/

/-- The keys of entries, in the order of the entries. -/
def keys (entries : Entries α) : List Key := entries.map fun entry => entry.1.canonical

/-- **No two entries are under one key.** -/
def Distinct (entries : Entries α) : Prop := entries.keys.Nodup

@[simp] theorem keys_cons (entry : Key × α) (entries : Entries α) :
    keys (entry :: entries) = entry.1.canonical :: entries.keys := rfl

theorem mem_keys_of_mem {entry : Key × α} {entries : Entries α} (h : entry ∈ entries) :
    entry.1.canonical ∈ entries.keys :=
  List.mem_map_of_mem h

/-- An insertion is found under its key, and under no other. -/
theorem find?_insert (k key : Key) (value : α) (entries : Entries α) :
    find? k (insert key value entries) =
      if k.canonical = key.canonical then some value else find? k entries := by
  induction entries with
  | nil => simp [insert, find?]
  | cons entry rest ih =>
    rw [insert]
    by_cases hkey : key.canonical = entry.1.canonical
    · rw [if_pos (Key.same_iff.2 hkey)]
      simp only [find?, Key.same_iff, hkey]
      split <;> rfl
    · rw [if_neg (mt Key.same_iff.1 hkey)]
      simp only [find?, Key.same_iff, ih]
      -- The entry that stays and the one inserted cannot both be under the key.
      by_cases hk : k.canonical = entry.1.canonical
      · rw [if_pos hk, if_neg fun h => hkey (h.symm.trans hk), if_pos hk]
      · rw [if_neg hk, if_neg hk]

/-- A key that is there keeps its place, and one that is not comes last. -/
theorem keys_insert (key : Key) (value : α) (entries : Entries α) :
    keys (insert key value entries) =
      if key.canonical ∈ entries.keys then entries.keys else entries.keys ++ [key.canonical] := by
  induction entries with
  | nil => rfl
  | cons entry rest ih =>
    rw [insert]
    by_cases hkey : key.canonical = entry.1.canonical
    · rw [if_pos (Key.same_iff.2 hkey), keys_cons, keys_cons, hkey, if_pos List.mem_cons_self]
    · rw [if_neg (mt Key.same_iff.1 hkey), keys_cons, keys_cons, ih]
      by_cases hmem : key.canonical ∈ keys rest
      · rw [if_pos hmem, if_pos (List.mem_cons_of_mem _ hmem)]
      · rw [if_neg hmem, if_neg (List.not_mem_cons_of_ne_of_not_mem hkey hmem), List.cons_append]

/-- An insertion does not make two entries of one key. -/
theorem Distinct.insert {entries : Entries α} (h : entries.Distinct) (key : Key) (value : α) :
    (Entries.insert key value entries).Distinct := by
  unfold Distinct
  rw [keys_insert]
  split
  case isTrue => exact h
  case isFalse hmem =>
    refine h.append (List.nodup_singleton _) ?_
    rw [List.disjoint_singleton]
    exact hmem

/-- An insertion keeps the entries under other keys and no others. -/
theorem Distinct.mem_insert {entries : Entries α} (h : entries.Distinct) {key : Key} {value : α}
    {entry : Key × α} (hmem : entry ∈ Entries.insert key value entries) :
    entry = (key, value) ∨ entry ∈ entries ∧ key.canonical ≠ entry.1.canonical := by
  induction entries with
  | nil => exact .inl (List.mem_singleton.1 hmem)
  | cons first rest ih =>
    obtain ⟨hfirst, hrest⟩ := List.nodup_cons.1 h
    rw [Entries.insert] at hmem
    by_cases hkey : key.canonical = first.1.canonical
    · rw [if_pos (Key.same_iff.2 hkey)] at hmem
      refine (List.mem_cons.1 hmem).imp_right fun hmem =>
        ⟨List.mem_cons_of_mem _ hmem, fun heq => ?_⟩
      have hsame : entry.1.canonical = first.1.canonical := heq.symm.trans hkey
      exact hfirst (List.mem_map.2 ⟨entry, hmem, hsame⟩)
    · rw [if_neg (mt Key.same_iff.1 hkey)] at hmem
      rcases List.mem_cons.1 hmem with rfl | hmem
      · exact .inr ⟨List.mem_cons_self, hkey⟩
      · exact (ih hrest hmem).imp_right fun hentry => ⟨List.mem_cons_of_mem _ hentry.1, hentry.2⟩

/-- A value that can be a key is inserted. -/
theorem put_of_some {key : Value β} {k : Key} (h : key.key? = some k) (value : Value β)
    (entries : Entries (Value β)) : put key value entries = (true, insert k value entries) := by
  rw [put, h]

/-- One that cannot leaves the entries as they are, and the answer tells of
it. -/
theorem put_of_none {key : Value β} (h : key.key? = none) (value : Value β)
    (entries : Entries (Value β)) : put key value entries = (false, entries) := by
  rw [put, h]

/-! ## A sequence of insertions -/

/-- **The entries after a sequence of insertions**, each a key with a value. -/
def putAll (calls : List (Value β × Value β)) (entries : Entries (Value β)) : Entries (Value β) :=
  calls.foldl (fun entries call => (put call.1 call.2 entries).2) entries

/-- **The keys under which insertions put something**, in the order of the
insertions. -/
def hashKeys (calls : List (Value β × Value β)) : List Key :=
  calls.filterMap fun call => call.1.hashKey?

/-- **The last of the insertions under a key.** -/
def last? (k : Key) (calls : List (Value β × Value β)) : Option (Value β × Value β) :=
  calls.reverse.find? fun call => call.1.hashKey? = some k

/-- The last insertion is done after the others. With the next two this is what
the induction over insertions uses. -/
theorem putAll_append_singleton (calls : List (Value β × Value β)) (call : Value β × Value β)
    (entries : Entries (Value β)) :
    putAll (calls ++ [call]) entries = (put call.1 call.2 (putAll calls entries)).2 := by
  rw [putAll, List.foldl_append]
  rfl

/-- Its key comes last, if it has one. -/
theorem hashKeys_append_singleton (calls : List (Value β × Value β)) (call : Value β × Value β) :
    hashKeys (calls ++ [call]) = hashKeys calls ++ call.1.hashKey?.toList := by
  rw [hashKeys, List.filterMap_append]
  cases h : call.1.hashKey? <;> simp [hashKeys, h]

/-- It is the last one under its key, and for other keys it does not count. -/
theorem last?_append_singleton (k : Key) (calls : List (Value β × Value β))
    (call : Value β × Value β) :
    last? k (calls ++ [call]) = if call.1.hashKey? = some k then some call else last? k calls := by
  rw [last?, List.reverse_append, List.reverse_singleton, List.singleton_append]
  by_cases h : call.1.hashKey? = some k
  · rw [if_pos h, List.find?_cons_of_pos (by simpa using h)]
  · rw [if_neg h, List.find?_cons_of_neg (by simpa using h), last?]

/-- Keys without repetitions, after one more key. -/
theorem eraseDups_append_singleton (ks : List Key) (k : Key) :
    (ks ++ [k]).eraseDups = if k ∈ ks.eraseDups then ks.eraseDups else ks.eraseDups ++ [k] := by
  rw [List.eraseDups_append]
  by_cases h : k ∈ ks <;> simp [List.removeAll, List.eraseDups_cons, h]

/-- **What insertions have made of no entries.** -/
structure BuiltBy (calls : List (Value β × Value β)) (entries : Entries (Value β)) : Prop where
  /-- Entries are in the order of the first insertions. -/
  keys : entries.keys = (hashKeys calls).eraseDups
  /-- There is one entry for each key. -/
  distinct : entries.Distinct
  /-- An entry shows key and value of the last insertion under its key. -/
  last : ∀ entry ∈ entries, last? entry.1.canonical calls = some (.ofKey entry.1, entry.2)
  /-- Under a key is the value of the last insertion. -/
  find : ∀ k, find? k entries = (last? k.canonical calls).map Prod.snd

/-- Without insertions there are no entries. -/
theorem builtBy_nil : BuiltBy ([] : List (Value β × Value β)) [] where
  keys := rfl
  distinct := List.nodup_nil
  last _ h := absurd h List.not_mem_nil
  find _ := rfl

/-- **One more insertion.** -/
theorem BuiltBy.put {calls : List (Value β × Value β)} {entries : Entries (Value β)}
    (h : BuiltBy calls entries) (call : Value β × Value β) :
    BuiltBy (calls ++ [call]) (Entries.put call.1 call.2 entries).2 := by
  cases hkey : call.1.key? with
  | none =>
    have hhash : call.1.hashKey? = none := by rw [Value.hashKey?, hkey, Option.map_none]
    have hlast : ∀ k, last? k (calls ++ [call]) = last? k calls := by
      intro k
      rw [last?_append_singleton, hhash, if_neg (Option.some_ne_none k).symm]
    rw [put_of_none hkey]
    refine ⟨?_, h.distinct, fun entry hentry => ?_, fun k => ?_⟩
    · rw [h.keys, hashKeys_append_singleton, hhash, Option.toList_none, List.append_nil]
    · rw [hlast, h.last entry hentry]
    · rw [hlast, h.find]
  | some key =>
    have hhash : call.1.hashKey? = some key.canonical := by
      rw [Value.hashKey?, hkey, Option.map_some]
    have hlast : ∀ k, last? k (calls ++ [call]) =
        if k = key.canonical then some call else last? k calls := by
      intro k
      rw [last?_append_singleton, hhash]
      exact if_congr (Option.some_inj.trans eq_comm) rfl rfl
    rw [put_of_some hkey]
    refine ⟨?_, h.distinct.insert key call.2, fun entry hentry => ?_, fun k => ?_⟩
    · rw [keys_insert, h.keys, hashKeys_append_singleton, hhash, Option.toList_some,
        eraseDups_append_singleton]
    · rw [hlast]
      rcases h.distinct.mem_insert hentry with rfl | ⟨hentry, hne⟩
      · -- The entry shows the key of this insertion, even if it stands where
        -- another was.
        rw [if_pos rfl, Value.ofKey_of_key? hkey]
      · rw [if_neg hne.symm, h.last entry hentry]
    · rw [find?_insert, hlast, h.find]
      split <;> rfl

/-- **Any number of insertions.** -/
theorem builtBy_putAll (calls : List (Value β × Value β)) : BuiltBy calls (putAll calls []) := by
  induction calls using List.reverseRecOn with
  | nil => exact builtBy_nil
  | append_singleton calls call ih =>
    rw [putAll_append_singleton]
    exact ih.put call

/-- What iteration lists is determined by the insertions. -/
theorem BuiltBy.pairs_eq {calls : List (Value β × Value β)} {entries : Entries (Value β)}
    (h : BuiltBy calls entries) :
    entries.pairs.map some = (hashKeys calls).eraseDups.map fun k => last? k calls := by
  rw [← h.keys, Entries.keys, Entries.pairs, List.map_map, List.map_map]
  exact List.map_congr_left fun entry hentry => (h.last entry hentry).symm

/-- A map has as many entries as different keys were inserted. -/
theorem BuiltBy.length_eq {calls : List (Value β × Value β)} {entries : Entries (Value β)}
    (h : BuiltBy calls entries) : entries.length = (hashKeys calls).toFinset.card := by
  have hset : (hashKeys calls).toFinset = entries.keys.toFinset := by
    ext k
    rw [List.mem_toFinset, List.mem_toFinset, h.keys, List.mem_eraseDups]
  rw [hset, List.toFinset_card_of_nodup h.distinct, Entries.keys, List.length_map]

/-! ## The instruction -/

/-- **Keys and values in turns.** A last key without a value is dropped. -/
def inTurns : List (Value β) → List (Value β × Value β)
  | key :: value :: rest => (key, value) :: inTurns rest
  | _ => []

/-- **The first insertion under what can be no key.** -/
def unusable? (calls : List (Value β × Value β)) : Option (Value β × Value β) :=
  calls.find? fun call => call.1.hashKey?.isNone

/-- A value can be no key if it has no key. -/
theorem isNone_hashKey? (v : Value β) : v.hashKey?.isNone = v.key?.isNone :=
  Option.isNone_map

/-- Operands whose keys can all be keys are inserted one after another. -/
theorem insertAll_of_none {entries : Entries (Value β)} {items : List (Value β)}
    (h : unusable? (inTurns items) = none) :
    Value.insertAll entries items = .ok (putAll (inTurns items) entries) := by
  fun_induction Value.insertAll entries items with
  | case1 entries key value rest k hkey ih =>
    rw [inTurns, unusable?, List.find?_cons_of_neg (by simp [isNone_hashKey?, hkey])] at h
    rw [ih h, inTurns, putAll, putAll, List.foldl_cons, put_of_some hkey]
  | case2 entries key value rest hkey =>
    rw [inTurns, unusable?, List.find?_cons_of_pos (by simp [isNone_hashKey?, hkey])] at h
    exact absurd h (Option.some_ne_none _)
  | case3 entries items hitems =>
    rw [inTurns]
    · rfl
    · exact hitems

/-- Operands are refused for the first key that can be none. -/
theorem insertAll_of_some {entries : Entries (Value β)} {items : List (Value β)}
    {call : Value β × Value β} (h : unusable? (inTurns items) = some call) :
    Value.insertAll entries items = .error (.unusableAsKey call.1.type) := by
  fun_induction Value.insertAll entries items with
  | case1 entries key value rest k hkey ih =>
    rw [inTurns, unusable?, List.find?_cons_of_neg (by simp [isNone_hashKey?, hkey])] at h
    exact ih h
  | case2 entries key value rest hkey =>
    rw [inTurns, unusable?, List.find?_cons_of_pos (by simp [isNone_hashKey?, hkey])] at h
    cases h
    rfl
  | case3 entries items hitems =>
    rw [inTurns] at h
    · cases h
    · exact hitems

section Instruction

variable (frame : Frame) (m : Machine) {below items : List Value} {count : UInt16}

/-- The operands are on top of the stack, the first of them lowest. -/
theorem execute_makeMap (hroom : (below ++ items).length ≤ stackSize)
    (hcount : count.toNat = items.length) :
    Exec.execute frame (.makeMap count) (m.withStack (below ++ items)) =
      (do Exec.push (.map (← Exec.ofExcept (Value.insertAll [] items)))) (m.withStack below) := by
  have hpop : Exec.popMany count.toNat (m.withStack (below ++ items)) =
      .ok items (m.withStack below) := by
    rw [hcount]
    exact Exec.popMany_append hroom
  exact Exec.bind_of_ok _ hpop

/-- If all keys are usable, the instruction makes the map of these
insertions. -/
theorem execute_makeMap_of_none (hroom : (below ++ items).length ≤ stackSize)
    (hcount : count.toNat = items.length) (h : unusable? (inTurns items) = none) :
    Exec.execute frame (.makeMap count) (m.withStack (below ++ items)) =
      Exec.push (.map (putAll (inTurns items) [])) (m.withStack below) := by
  rw [execute_makeMap frame m hroom hcount, insertAll_of_none h]
  rfl

/-- Otherwise it fails, and the error names the type of the first key that is
not usable. -/
theorem execute_makeMap_of_some {call : Value × Value} (hroom : (below ++ items).length ≤ stackSize)
    (hcount : count.toNat = items.length) (h : unusable? (inTurns items) = some call) :
    Exec.execute frame (.makeMap count) (m.withStack (below ++ items)) =
      .error (.error (.unusableAsKey call.1.type)) (m.withStack below) := by
  rw [execute_makeMap frame m hroom hcount, insertAll_of_some h]
  rfl

/-- The instruction refuses a key exactly for the first one that can be none. -/
theorem makeMap_refuses_iff (hroom : (below ++ items).length ≤ stackSize)
    (hcount : count.toNat = items.length) (type : ValueType) :
    (∃ m', Exec.execute frame (.makeMap count) (m.withStack (below ++ items)) =
        .error (.error (.unusableAsKey type)) m') ↔
      (unusable? (inTurns items)).map (fun call => call.1.type) = some type := by
  cases h : unusable? (inTurns items) with
  | none =>
    rw [execute_makeMap_of_none frame m hroom hcount h]
    refine iff_of_false ?_ (Option.some_ne_none type).symm
    rintro ⟨m', hm'⟩
    by_cases hfull : below.length < stackSize
    · rw [Exec.push_of_lt _ hfull] at hm'
      cases hm'
    · rw [Exec.push_of_le _ (Nat.not_lt.1 hfull)] at hm'
      cases hm'
  | some call =>
    rw [execute_makeMap_of_some frame m hroom hcount h, Option.map_some, Option.some_inj]
    constructor
    · rintro ⟨m', hm'⟩
      cases hm'
      rfl
    · rintro rfl
      exact ⟨_, rfl⟩

end Instruction

/-- **Maps are determined by their insertions.** For every sequence of
insertions into an empty map:

* iteration lists one entry for each key, in the order of the first insertions,
  and each entry is the key with the value of the last insertion under it;
* under a key is the value of the last insertion, if there was one;
* there are as many entries as there are keys.

An insertion under what can be no key says so and changes nothing. The
instruction that makes a map makes the one that its operands in turns make; it
fails for a key if one of them can be none, and then for the first of these. -/
theorem insertions_determine_map :
    (∀ calls : List (Value × Value),
      (putAll calls []).pairs.map some = (hashKeys calls).eraseDups.map (fun k => last? k calls) ∧
      (∀ k, find? k (putAll calls []) = (last? k.canonical calls).map Prod.snd) ∧
      (putAll calls []).length = (hashKeys calls).toFinset.card) ∧
    (∀ (key value : Value) (entries : Entries Value),
      (put key value entries).1 = key.hashKey?.isSome ∧
      (key.hashKey? = none → put key value entries = (false, entries))) ∧
    ∀ (frame : Frame) (m : Machine) (below items : List Value) (count : UInt16),
      (below ++ items).length ≤ stackSize → count.toNat = items.length →
      (∀ type, (∃ m', Exec.execute frame (.makeMap count) (m.withStack (below ++ items)) =
          .error (.error (.unusableAsKey type)) m') ↔
        (unusable? (inTurns items)).map (fun call => call.1.type) = some type) ∧
      (unusable? (inTurns items) = none → below.length < stackSize →
        Exec.execute frame (.makeMap count) (m.withStack (below ++ items)) =
          .ok () (m.withStack (below ++ [Value.map (putAll (inTurns items) [])]))) := by
  refine ⟨fun calls => ?_, fun key value entries => ?_,
    fun frame m below items count hroom hcount => ?_⟩
  · have h := builtBy_putAll calls
    exact ⟨h.pairs_eq, h.find, h.length_eq⟩
  · rw [Value.hashKey?, Option.isSome_map, Option.map_eq_none_iff]
    refine ⟨?_, fun hkey => put_of_none hkey value entries⟩
    cases hkey : key.key? with
    | none => rw [put_of_none hkey, Option.isSome_none]
    | some k => rw [put_of_some hkey, Option.isSome_some]
  · refine ⟨makeMap_refuses_iff frame m hroom hcount, fun h hfull => ?_⟩
    rw [execute_makeMap_of_none frame m hroom hcount h, Exec.push_of_lt _ hfull]

/-- Operands with a key given twice, with both zeros as keys, and with a key
left over. -/
def repeatedKeys : List Value :=
  [.string "a", .null, .number .zero, .boolean true, .string "a", .boolean false,
    .number Number.zero.neg, .null, .string "b"]

/-- An array among the keys. -/
def arrayAsKey : List Value := [.string "a", .null, .array [], .null]

/-- The entry of `a` stays the first, with its second value, and the one of zero
shows the negative zero. -/
theorem insertions_determine_map_repeated :
    Exec.execute default (.makeMap 9)
        ((default : Machine).withStack ([Value.null] ++ repeatedKeys)) =
      .ok () ((default : Machine).withStack
        ([Value.null] ++ [Value.map (putAll (inTurns repeatedKeys) [])])) ∧
      (putAll (inTurns repeatedKeys) []).pairs.map some =
        [some (.string "a", .boolean false), some (.number Number.zero.neg, .null)] ∧
      find? (.number .zero) (putAll (inTurns repeatedKeys) []) = some .null ∧
      ∃ m', Exec.execute default (.makeMap 4) ((default : Machine).withStack ([] ++ arrayAsKey)) =
        .error (.error (.unusableAsKey .array)) m' := by
  obtain ⟨hlaw, -, hinstruction⟩ := insertions_determine_map
  obtain ⟨hpairs, hfind, -⟩ := hlaw (inTurns repeatedKeys)
  have horder : (hashKeys (inTurns repeatedKeys)).eraseDups = [.string "a", .number .zero] := by
    decide +kernel
  refine ⟨?_, ?_, (hfind _).trans rfl, ?_⟩
  · exact (hinstruction default default [.null] repeatedKeys 9 (by decide) (by decide)).2 rfl
      (by decide)
  · rw [hpairs, horder]
    rfl
  · exact ((hinstruction default default [] arrayAsKey 4 (by decide) (by decide)).1 .array).2 rfl

end Entries

end StackScript
