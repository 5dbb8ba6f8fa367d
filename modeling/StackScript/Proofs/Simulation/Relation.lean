import StackScript.Proofs.Symbol.Coherence
import StackScript.Proofs.Value.Congruence

/-!
# Values of the machine and values of the evaluator

The machine's functions run code, the evaluator's functions are pieces of the
program. A routine is **compiled** from a function of the evaluator if its code
has the layout of the function's body (`Compiled`); the names that it captured
on the way are those of the values that a closure must bring.

`Related` compares values: data are the same, and a closure of the machine is
related to a closure of the evaluator if it has the same identity, its routine
is compiled from the function, and the values it captured are related to the
values that the evaluator's closure keeps under the captured names. The
evaluator's closure keeps the values of all names around it, the machine's only
those that are used.
-/

namespace StackScript

open Instruction (encodeAll sizeAll)

/-- **A routine that was compiled from a function**, and the names it captures,
in order. All the constants that its code refers to are in the pool, and so is
the routine itself. -/
inductive Compiled (pool : Array Value) : Routine → Lambda → List String → Prop where
  | intro {t : SymbolTable} {constants : Array Value} {is : List Instruction} {c : Setting}
      {f : Lambda} {identity : Nat} :
      t.Coherent →
      Writes ⟨t.enterFunction f.name f.params, constants⟩ 0 (.body f.body) is c →
      c.constants.toList <+: pool.toList →
      f.around = namesAround (t.inner :: t.outer) →
      f.globals = (topScope t.inner t.outer).own →
      .routine ⟨identity, (encodeAll is).toArray, c.symbols.inner.definitions, f.params.length⟩ ∈
        pool.toList →
      Compiled pool
        ⟨identity, (encodeAll is).toArray, c.symbols.inner.definitions, f.params.length⟩ f
        (c.symbols.inner.captures.toList.map (·.name))

/-- **A value of the machine and the value of the evaluator that it stands
for.** -/
inductive Related (pool : Array Value) : Value → Value Lambda → Prop where
  | number (n : Number) : Related pool (.number n) (.number n)
  | boolean (b : Bool) : Related pool (.boolean b) (.boolean b)
  | string (s : String) : Related pool (.string s) (.string s)
  | null : Related pool .null .null
  | builtin (b : Builtin) : Related pool (.builtin b) (.builtin b)
  | array {xs : List Value} {ys : List (Value Lambda)} : xs.length = ys.length →
      (∀ (i : Nat) x y, xs[i]? = some x → ys[i]? = some y → Related pool x y) →
      Related pool (.array xs) (.array ys)
  | map {xs : List (Key × Value)} {ys : List (Key × Value Lambda)} :
      xs.map (·.1) = ys.map (·.1) →
      (∀ (i : Nat) x y, xs[i]? = some x → ys[i]? = some y → Related pool x.2 y.2) →
      Related pool (.map xs) (.map ys)
  | closure {identity : Nat} {body : Routine} {captured : List Value} {f : Lambda}
      {values : List (Value Lambda)} {names : List String} (kept : Nat → Value Lambda) :
      Compiled pool body f names →
      captured.length = names.length →
      f.around.length = values.length →
      (∀ (j : Nat) name, names[j]? = some name →
        (f.around.zip values).lookup name = some (kept j)) →
      (∀ (j : Nat) v, captured[j]? = some v → Related pool v (kept j)) →
      Related pool (.closure identity body captured) (.closure identity f values)

/-! ## The pool grows -/

/-- A routine stays compiled from its function when the pool grows. -/
theorem Compiled.mono {pool pool' : Array Value} {body : Routine} {f : Lambda} {names : List String}
    (h : Compiled pool body f names) (hp : pool.toList <+: pool'.toList) :
    Compiled pool' body f names := by
  cases h with
  | intro ht hw hconstants haround hglobals hmem =>
    exact .intro ht hw (hconstants.trans hp) haround hglobals (hp.subset hmem)

/-- So values stay related. This is why closures of earlier programs can still
be called. -/
theorem Related.mono {pool pool' : Array Value} {v : Value} {w : Value Lambda}
    (h : Related pool v w) (hp : pool.toList <+: pool'.toList) : Related pool' v w := by
  induction h with
  | number n => exact .number n
  | boolean b => exact .boolean b
  | string s => exact .string s
  | null => exact .null
  | builtin b => exact .builtin b
  | array hlen _ ih => exact .array hlen ih
  | map hkeys _ ih => exact .map hkeys ih
  | closure kept hcompiled hlen haround hkept _ ih =>
    exact .closure kept (hcompiled.mono hp) hlen haround hkept ih

/-! ## Operations keep values related -/

/-- **The relation is structural**, so that operators and builtin functions give
related results: they do not look into functions. -/
theorem Related.structural (pool : Array Value) : Structural (Related pool) where
  shape h := by
    cases h with
    | number n => exact .number n
    | boolean b => exact .boolean b
    | string s => exact .string s
    | null => exact .null
    | builtin b => exact .builtin b
    | array hlen hitems => exact .array (forall₂_of_getElem? hlen hitems)
    | map hkeys hvalues => exact .map (EntryRel.forall₂_of_getElem? hkeys hvalues)
    | closure kept hcompiled =>
      cases hcompiled
      exact .closure rfl
  identity h h' := by
    cases h
    cases h'
    rfl
  number := .number
  boolean := .boolean
  string := .string
  null := .null
  builtin := .builtin
  array h := .array h.length_eq (getElem?_of_forall₂ h)
  map h := .map (EntryRel.keys_eq h) fun i x y hx hy => (getElem?_of_forall₂ h i x y hx hy).2

end StackScript
