import StackScript.Proofs.Compiler.Adequacy
import StackScript.Proofs.Simulation.Steps

/-!
# Function literals

A function literal is evaluated by loading what the function captures and
building the closure from it. The closure of the machine has the values that are
captured, that of the evaluator has the values of all names around the literal;
the two are related because the captured values are found under their names.
-/

namespace StackScript

open Instruction (encodeAll sizeAll)

section

variable {r : Course} {g : Stage} {t t' : SymbolTable} {s s' : EvalState} {ip : Nat}
  {temps : List Value} {m : Machine} {i : Instruction} {rest : List Instruction}
  {fault : Option (RuntimeError × World)}

/-- **The table of names is exchanged for a later one**, and with it the
evaluator's names. -/
theorem Standing.retable (h : Standing r g t s ip temps m) (ht' : t'.Coherent)
    (houter : List.Forall₂ Scope.Grows t.outer t'.outer) {f : Names → Names}
    (hnames : f s.here.names = t'.inner.names) :
    Standing r g t' (s.rename f) ip temps m := by
  refine ⟨ht', hnames, ?_, h.world, h.frames, h.stack⟩
  cases h.knows with
  | top hnil hglobals haround hself hbelow hcallers =>
    rw [hnil] at houter
    cases houter' : t'.outer with
    | nil => exact .top houter' hglobals haround hself hbelow hcallers
    | cons => rw [houter'] at houter; cases houter
  | function hne hglobals haround hself hcaptured hbelow hcallers =>
    have hnames := namesAround_of_grows houter
    cases hold : t.outer with
    | nil => exact (hne hold).elim
    | cons next further =>
      rw [hold] at houter
      cases hnew : t'.outer with
      | nil => rw [hnew] at houter; cases houter
      | cons next' further' =>
        rw [hnew] at houter
        refine .function (by rw [hnew]; exact nofun) ?_ (haround.trans hnames.symm) hself hcaptured
          hbelow hcallers
        cases houter with
        | cons hnext hfurther =>
          rw [hold] at hglobals
          rw [hnew, topScope, topScope_own hnext hfurther]
          exact hglobals

/-- Names that were looked up have changed nothing for the evaluator. -/
theorem Standing.regrow (h : Standing r g t s ip temps m) (ht' : t'.Coherent)
    (hinner : t.inner.Grows t'.inner) (houter : List.Forall₂ Scope.Grows t.outer t'.outer) :
    Standing r g t' s ip temps m := by
  have hnames : s.here.names = t'.inner.names := by
    rw [h.names, Scope.names, Scope.names, hinner.own, hinner.definitions]
  exact h.retable (f := id) ht' houter hnames

/-- The names that a function literal finds around it are those of the table. -/
theorem Standing.surroundings_names (h : Standing r g t s ip temps m) :
    s.surroundings.map (·.1) = namesAround (t.inner :: t.outer) := by
  cases h.knows with
  | top hnil hglobals =>
    rw [EvalState.surroundings, hglobals, hnil]
    rfl
  | function hne hglobals haround =>
    obtain ⟨next, further, hcons⟩ := List.exists_cons_of_ne_nil hne
    have hbound : s.here.names.bound = t.inner.own := by rw [h.names]; rfl
    rw [EvalState.surroundings, hglobals, hcons, namesAround, ← hcons, ← haround, ← hbound]
    simp only [Option.isNone_some, Bool.false_eq_true, if_false, List.map_append, List.map_map]
    rfl

/-- The globals that a function literal sees are those of the table. -/
theorem Standing.globals_names (h : Standing r g t s ip temps m) :
    s.here.globals.getD s.here.names.bound = (topScope t.inner t.outer).own := by
  cases h.knows with
  | top hnil hglobals =>
    rw [hglobals, hnil, h.names]
    rfl
  | function _ hglobals => rw [hglobals, Option.getD_some]

/-- Symbols of an inner function and the values that were loaded for them. -/
def Captured (r : Course) (s : EvalState) (x : Symbol) (v : Value) : Prop :=
  ∃ w, s.surroundings.lookup x.name = some w ∧ Related r.pool v w

/-- **What a function captures is loaded.** -/
theorem Standing.loadAll {c : Setting} {sources : List Symbol} {loads : List Instruction}
    (h : Standing r g c.symbols s ip temps m) (hfits : Fits r g c)
    (hseen : ∀ x ∈ sources, c.symbols.outer ≠ [] ∧ x.SeenIn c.symbols.inner)
    (hloads : Symbol.loads? sources = some loads)
    (hcode : g.closure.body.code.Placed ip (loads ++ rest)) :
    Leads m loads.length (fun m' => ∃ vs, List.Forall₂ (Captured r s) sources vs ∧
      Standing r g c.symbols s (ip + sizeAll loads) (temps ++ vs) m') (Halts r fault) := by
  induction sources generalizing ip temps m loads with
  | nil =>
    cases hloads
    exact Leads.here ⟨[], .nil, by rw [List.append_nil]; exact h⟩
  | cons x sources ih =>
    rw [Symbol.loads?] at hloads
    split at hloads
    · next i is hi his =>
      cases hloads
      obtain ⟨houter, hx⟩ := hseen x (List.mem_cons_self ..)
      obtain ⟨w, hw, hsim⟩ := h.load_seen hfits houter hx hi hcode
      have hsim' : Leads m 1 (Pushed r g c.symbols (ip + i.size) temps w s) (Halts r fault) :=
        Leads.mono hsim (Nat.le_refl _) (fun _ => id) fun _ _ h => h.of_none _
      rw [List.length_cons, Nat.add_comm]
      refine hsim'.bind ?_
      rintro m₁ ⟨v, hv, hstanding⟩
      refine (ih hstanding (fun y hy => hseen y (List.mem_cons_of_mem _ hy)) his hcode.tail).mono
        (Nat.le_refl _) ?_ fun _ _ => id
      rintro m₂ ⟨vs, hvs, hstanding₂⟩
      refine ⟨v :: vs, .cons ⟨w, hw, hv⟩ hvs, ?_⟩
      rw [List.append_assoc, List.singleton_append, Nat.add_assoc] at hstanding₂
      exact hstanding₂
    · cases hloads

/-- **The closure is built.** -/
theorem Standing.makeClosure {vs : List Value} {sources : List Symbol} {body : Routine} {k : Nat}
    {name : Option String} {params : List Ident} {statements : List Stmt}
    (h : Standing r g t s ip (temps ++ vs) m) (hk : k < 65536) (hlt : vs.length < 256)
    (hcode : g.closure.body.code.Placed ip
      (.makeClosure (UInt16.ofNat k) (UInt8.ofNat vs.length) :: rest))
    (hpool : r.pool[k]? = some (.routine body))
    (hvs : List.Forall₂ (Captured r s) sources vs)
    (hbody : Compiled r.pool body
      ⟨name, params, statements, s.surroundings.map (·.1), s.here.globals.getD s.here.names.bound⟩
      (sources.map (·.name))) :
    Leads m 1 (Pushed r g t (ip + 4) temps (s.close name params statements).1
      (s.close name params statements).2) (Halts r fault) := by
  refine h.leads hcode fun locals m' hready => ?_
  have hfind : (m'.withStack (g.below ++ (locals ++ (temps ++ vs)))).constants[k]? =
      some (.routine body) := by
    rw [← hpool, ← hready.world.constants]
    rfl
  have hconstant := Exec.constant_of_some .makeClosure hfind
  rw [Exec.execute, UInt16.toNat_ofNat_of_lt' hk, UInt8.toNat_ofNat_of_lt' hlt,
    Exec.bind_of_ok _ hconstant]
  show Lands _ _ ((Exec.popMany vs.length >>= fun captured => Exec.pushClosure body captured) _)
  rw [Exec.bind_of_ok _ hready.popMany]
  have hready' : Ready r g (s.close name params statements).2 (ip + 4) locals temps
      { m' with nextIdentity := m'.nextIdentity + 1 } :=
    ⟨⟨hready.world.constants, hready.world.globals, congrArg (· + 1) hready.world.identity,
      hready.world.output, hready.world.budget⟩, hready.frames, hready.size, hready.values,
      hready.drop.room⟩
  refine hready'.push h.coherent h.names h.knows ?_
  show Related r.pool (.closure m'.nextIdentity body vs) (.closure s.world.nextIdentity _ _)
  rw [hready.world.identity]
  have hzip : (s.surroundings.map (·.1)).zip (s.surroundings.map (·.2)) = s.surroundings :=
    (List.zip_of_prod rfl rfl).symm
  -- What the machine captured under a name is what the evaluator finds under it.
  have hfind : ∀ (j : Nat) x, sources[j]? = some x → ∃ v w, vs[j]? = some v ∧
      s.surroundings.lookup x.name = some w ∧ Related r.pool v w := by
    intro j x hx
    have hj : j < vs.length := hvs.length_eq ▸ (List.getElem?_eq_some_iff.1 hx).1
    obtain ⟨w, hw, hvw⟩ := getElem?_of_forall₂ hvs j x vs[j] hx (List.getElem?_eq_getElem hj)
    exact ⟨vs[j], w, List.getElem?_eq_getElem hj, hw, hvw⟩
  refine .closure (fun j => ((sources[j]?.bind fun x => s.surroundings.lookup x.name).getD .null))
    hbody ?_ ?_ ?_ ?_
  · rw [List.length_map, hvs.length_eq]
  · rw [List.length_map, List.length_map]
  · intro j name hname
    rw [List.getElem?_map, Option.map_eq_some_iff] at hname
    obtain ⟨x, hx, rfl⟩ := hname
    obtain ⟨v, w, -, hw, -⟩ := hfind j x hx
    rw [hzip, hw, hx, Option.bind_some, hw, Option.getD_some]
  · intro j v hv
    have hj : j < sources.length := hvs.length_eq ▸ (List.getElem?_eq_some_iff.1 hv).1
    obtain ⟨v', w, hv', hw, hvw⟩ := hfind j sources[j] (List.getElem?_eq_getElem hj)
    rw [hv] at hv'
    cases hv'
    rw [List.getElem?_eq_getElem hj, Option.bind_some, hw, Option.getD_some]
    exact hvw

/-- **A function literal.** -/
theorem Standing.function {c c' : Setting} {symbols : SymbolTable} {name : Option String}
    {params : List Ident} {statements : List Stmt} {is loads : List Instruction}
    (h : Standing r g c.symbols s ip temps m)
    (hw : Writes { c with symbols := c.symbols.enterFunction name params } 0
      (.body statements) is c')
    (hleave : c'.symbols.leave? = some symbols) (hcaptures : c'.symbols.inner.captures.size < 256)
    (hloads : Symbol.loads? c'.symbols.inner.captures.toList = some loads)
    (hconstants : c'.constants.size < 65536)
    (hfits : Fits r g ⟨symbols, c'.constants.push (.routine ⟨c'.constants.size,
      (encodeAll is).toArray, c'.symbols.inner.definitions, params.length⟩)⟩)
    (hcode : g.closure.body.code.Placed ip (loads ++ [.makeClosure (UInt16.ofNat c'.constants.size)
      (UInt8.ofNat c'.symbols.inner.captures.size)])) :
    Leads m (loads.length + 1) (Pushed r g symbols (ip + sizeAll loads + 4) temps
      (s.close name params statements).1 (s.close name params statements).2) (Halts r fault) := by
  have hext := hw.extends (h.coherent.enterFunction name params)
  have houter := SymbolTable.outer_of_leave? hleave
  have hchain := hext.coherent
  rw [SymbolTable.Coherent, houter] at hchain
  have hgrows := hext.outer
  rw [houter, SymbolTable.outer_enterFunction] at hgrows
  cases hgrows with
  | cons hinner hrest =>
    have hstanding : Standing r g symbols s ip temps m := h.regrow hchain.tail hinner hrest
    refine (hstanding.loadAll hfits hchain.captures_seen hloads hcode).bind ?_
    rintro m₁ ⟨vs, hvs, hstanding₁⟩
    have hlen : c'.symbols.inner.captures.size = vs.length := by
      rw [Array.size_eq_length_toList, hvs.length_eq]
    have hcode₁ := hcode.right
    rw [hlen] at hcode₁ hcaptures
    have hpush : (c'.constants.push (.routine ⟨c'.constants.size, (encodeAll is).toArray,
        c'.symbols.inner.definitions, params.length⟩)).toList = c'.constants.toList ++
          [.routine ⟨c'.constants.size, (encodeAll is).toArray, c'.symbols.inner.definitions,
            params.length⟩] := Array.toList_push
    have hpool := hfits.constants
    refine hstanding₁.makeClosure hconstants hcaptures hcode₁
      (getElem?_of_isPrefixOf hpool Array.getElem?_push_size) hvs ?_
    refine Compiled.intro (t := c.symbols) (f := ⟨name, params, statements, _, _⟩) h.coherent hw ?_
      h.surroundings_names h.globals_names ?_
    · exact List.IsPrefix.trans (hpush ▸ List.prefix_append _ _) hpool
    · exact hpool.subset (hpush ▸ List.mem_append_right _ (List.mem_singleton_self _))

end

end StackScript
