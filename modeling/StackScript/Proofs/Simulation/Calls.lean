import StackScript.Proofs.Simulation.Steps

/-!
# Calls

When a closure is called, the machine stands at the beginning of the function's
body and the evaluator is about to evaluate it; what has been simulated for
bodies (`BodySim`) takes the machine to the return, and from there it stands
where the caller was.

A call takes as many rounds as the code of a function can take when one call
fewer can be nested (`weight`). When no more calls can be nested the machine
halts, whatever the evaluator does.
-/

namespace StackScript

open Instruction (encodeAll sizeAll)

/-- **The rounds that a byte of code may take**, when so many calls can be
nested. -/
def weight (longest : Nat) : Nat → Nat
  | 0 => 1
  | n + 1 => 1 + longest * weight longest n

theorem weight_pos (longest n : Nat) : 0 < weight longest n := by
  cases n with
  | zero => exact Nat.one_pos
  | succ n => exact Nat.add_pos_left Nat.one_pos _

/-- The rounds that instructions may take, when so many calls can be nested. -/
def Course.rounds (r : Course) (n : Nat) (is : List Instruction) : Nat :=
  sizeAll is * weight r.longest n

/-- **Bodies are simulated** where so many calls can be nested, if the evaluator
goes so many calls deep. -/
def BodySim (r : Course) (n depth : Nat) : Prop :=
  ∀ {g : Stage} {c c' : Setting} {start : Nat} {block : List Stmt} {is : List Instruction}
    {s : EvalState} {temps : List Value} {m : Machine}, g.left = n → c.symbols.isGlobal = false →
    Writes c start (.body block) is c' → Fits r g c' → g.closure.body.code.Placed start is →
    Standing r g c.symbols s start temps m →
    Sim r g (Eval.block (Eval.callAt depth) block s) m (r.rounds n is)
      fun w s' => Returned r g w s'.world

/-- A function is left where it is returned from. -/
theorem Sim.within {r : Course} {g g' : Stage} {here : Activation} {x : Eval (Value Lambda)}
    {s : EvalState} {m : Machine} {cost : Nat} {Q : Value Lambda → EvalState → Machine → Prop}
    (h : Sim r g' (x ⟨here, s.world⟩) m cost fun w s' => Returned r g' w s'.world)
    (hQ : ∀ w world m', Returned r g' w world m' → Q w { s with world } m') :
    Sim r g (Eval.within here x s) m cost Q := by
  unfold Eval.within
  cases hresult : x ⟨here, s.world⟩ with
  | ok w s' =>
    rw [hresult] at h
    exact Leads.mono h (Nat.le_refl _) (fun m' => hQ w s'.world m') fun _ _ => id
  | error signal s' =>
    rw [hresult] at h
    cases signal with
    | returned w => exact Leads.mono h (Nat.le_refl _) (fun m' => hQ w s'.world m') fun _ _ => id
    | error | tooDeep | unbound => exact Leads.mono h (Nat.le_refl _) (fun _ => id) fun _ _ => id

section

variable {r : Course} {g : Stage} {t : SymbolTable} {s : EvalState} {ip depth : Nat}
  {temps vs locals : List Value} {ws : List (Value Lambda)} {m : Machine} {rest : List Instruction}
  {v : Value} {w : Value Lambda}

/-- The variables of a function that has been called: its parameters, and others
that are null. -/
theorem related_arguments {pool : Array Value} (hvs : List.Forall₂ (Related pool) vs ws) (n i : Nat)
    (hv : (vs ++ List.replicate n Value.null)[i]? = some v) :
    Related pool v (ws[i]?.getD .null) := by
  have hlen := hvs.length_eq
  by_cases hi : i < vs.length
  · rw [List.getElem?_append_left hi] at hv
    rw [List.getElem?_eq_getElem (hlen ▸ hi)]
    exact getElem?_of_forall₂ hvs i v _ hv (List.getElem?_eq_getElem (hlen ▸ hi))
  · rw [List.getElem?_append_right (Nat.not_lt.1 hi), List.getElem?_replicate] at hv
    obtain ⟨-, ⟨⟩⟩ := Option.ite_none_right_eq_some.1 hv
    rw [List.getElem?_eq_none (hlen ▸ Nat.not_lt.1 hi)]
    exact .null

/-- What is called decides what a call does. -/
theorem execute_call (frame : Frame) (hlt : vs.length < 256) (below : List Value) :
    Exec.execute frame (.call (UInt8.ofNat vs.length))
        (m.withStack (below ++ (locals ++ (temps ++ v :: vs)))) =
      (match v with
        | .closure identity body captured => Exec.enter ⟨identity, body, captured⟩
            ((below ++ (locals ++ temps)).length + 1) vs.length
        | .builtin b => Exec.callBuiltin b (below ++ (locals ++ temps)).length
        | v => Exec.fail (.notAFunction v.type))
        (m.withStack ((below ++ (locals ++ temps)) ++ v :: vs)) := by
  rw [Exec.execute, UInt8.toNat_ofNat_of_lt' hlt, stack_append]
  exact Exec.call_append v vs

/-- **The frame of a function that has been called.** -/
def Stage.callee (g : Stage) (closure : Closure) (names : List String) (ip : Nat)
    (stack : List Value) (n : Nat) (hn : g.left = n + 1) : Stage where
  closure := closure
  callers := ⟨g.closure, ip, g.below.length⟩ :: g.callers
  below := stack ++ [closure.value]
  names := names
  left := n
  depth := by
    have := g.depth
    rw [List.length_cons]
    omega

/-- **The machine enters a function**, if there is room for it. -/
theorem Ready.enter {n : Nat} {c : Closure} {names : List String} {t' : SymbolTable}
    {here : Activation} {fault : Option (RuntimeError × World)}
    (h : Ready r g s ip locals (temps ++ c.value :: vs) m) (hn : g.left = n + 1)
    (harity : vs.length = c.body.params) (hparams : c.body.params ≤ c.body.locals)
    (hcoherent : t'.Coherent) (hnames : here.names = t'.inner.names)
    (hknows : Knows r (g.callee c names ip (g.below ++ (locals ++ temps)) n hn) t' here)
    (hvs : List.Forall₂ (Related r.pool) vs ws)
    (hlocals : here.locals = fun i => ws[i]?.getD .null) :
    Lands
      (Standing r (g.callee c names ip (g.below ++ (locals ++ temps)) n hn) t' ⟨here, s.world⟩ 0 [])
      (Halts r fault)
      (Exec.enter c ((g.below ++ (locals ++ temps)).length + 1) vs.length
        (m.withStack ((g.below ++ (locals ++ temps)) ++ c.value :: vs))) := by
  have hlen : (g.below ++ (locals ++ temps) ++ [c.value]).length =
      (g.below ++ (locals ++ temps)).length + 1 := List.length_append
  have hstack : (g.below ++ (locals ++ temps)) ++ c.value :: vs =
      (g.below ++ (locals ++ temps) ++ [c.value]) ++ vs := List.append_cons ..
  have hargs : (vs ++ List.replicate (c.body.locals - c.body.params) Value.null).length =
      c.body.locals := by
    rw [List.length_append, List.length_replicate, harity]
    omega
  by_cases hroom : (g.below ++ (locals ++ temps)).length + 1 + c.body.locals ≤ stackSize
  · -- The calls that can still be nested are counted, and one of them is left.
    have hframes : m.frames.length < maxFrames := by
      have := g.depth
      rw [h.frames, List.length_cons]
      omega
    rw [← hlen, hstack, Exec.enter_of_room harity hframes hparams (hlen ▸ hroom)]
    refine ⟨hcoherent, hnames, hknows, ?_, ?_, ?_⟩
    · exact ⟨h.world.constants, h.world.globals, h.world.identity, h.world.output, h.world.budget⟩
    · show (⟨c, 0, _⟩ :: m.frames : List Frame) = ⟨c, 0, _⟩ :: _ :: g.callers
      rw [h.frames]
      rfl
    · refine ⟨vs ++ List.replicate (c.body.locals - c.body.params) Value.null, ?_, fun i v hv => ?_,
        ?_⟩
      · exact hargs
      · show Related r.pool v (here.locals i)
        rw [hlocals]
        -- The arguments are the first variables, and all others are null on
        -- both sides.
        exact related_arguments hvs _ i hv
      · rw [List.append_nil]
        refine Machine.holds_withStack ?_
        show ((g.below ++ (locals ++ temps) ++ [c.value]) ++ (vs ++ _)).length ≤ stackSize
        rw [List.length_append, hlen, hargs]
        exact hroom
  · rw [Exec.enter_of_full harity (.inr (Nat.not_le.1 hroom))]
    exact .overflow (h.world.withStack _).sound

/-- **The caller goes on** after a return, with the result on the stack. -/
theorem Returned.pushed {n : Nat} {c : Closure} {names : List String} {world : World} {m' : Machine}
    (h : Ready r g s ip locals temps m) (hn : g.left = n + 1) (hcoherent : t.Coherent)
    (hnames : s.here.names = t.inner.names) (hknows : Knows r g t s.here)
    (hreturned : Returned r (g.callee c names ip (g.below ++ (locals ++ temps)) n hn) w world m') :
    Pushed r g t ip temps w { s with world } m' := by
  obtain ⟨v, under, x, hbelow, hv, hworld, hframes, hholds⟩ := hreturned
  obtain ⟨rfl, -⟩ := List.append_inj' hbelow rfl
  refine ⟨v, hv, hcoherent, hnames, hknows, hworld, hframes, locals, h.size, h.values, ?_⟩
  rw [stack_append]
  exact hholds

/-- **What there is to know of a closure that is called.** -/
structure Callee (pool : Array Value) (c : Closure) (f : Lambda) (values : List (Value Lambda))
    (t : SymbolTable) (constants : Array Value) (is : List Instruction) (c' : Setting) : Prop where
  /-- The table where the function literal stands can be relied on. -/
  coherent : t.Coherent
  /-- The layout of the function's body. -/
  writes : Writes ⟨t.enterFunction f.name f.params, constants⟩ 0 (.body f.body) is c'
  /-- The constants of the body are in the pool. -/
  inPool : c'.constants.toList <+: pool.toList
  /-- The evaluator's names around the function. -/
  around : f.around = namesAround (t.inner :: t.outer)
  /-- The evaluator's globals. -/
  globals : f.globals = (topScope t.inner t.outer).own
  /-- The routine is in the pool. -/
  routine : .routine c.body ∈ pool.toList
  /-- The code of the function. -/
  code : c.body.code = (encodeAll is).toArray
  /-- The number of variables. -/
  locals : c.body.locals = c'.symbols.inner.definitions
  /-- The number of parameters. -/
  params : c.body.params = f.params.length
  /-- The evaluator has a value for each name around the function. -/
  length : f.around.length = values.length
  /-- What was captured is what the evaluator has. -/
  captured : ∀ (j : Nat) name, (c'.symbols.inner.captures.toList.map (·.name))[j]? = some name →
    ∃ v w, c.captured[j]? = some v ∧ (f.around.zip values).lookup name = some w ∧ Related pool v w

theorem Related.callee {pool : Array Value} {c : Closure} {identity : Nat} {f : Lambda}
    {values : List (Value Lambda)} (h : Related pool c.value (.closure identity f values)) :
    ∃ t constants is c', Callee pool c f values t constants is c' := by
  obtain ⟨id, body, captured⟩ := c
  cases h with
  | closure kept hcompiled hsize hlen hkept hrelated =>
    cases hcompiled with
    | @intro t constants is c' _ _ ht hw hpool haround hglobals hmem =>
      refine ⟨t, constants, is, c', ht, hw, hpool, haround, hglobals, hmem, rfl, rfl, rfl, hlen, ?_⟩
      intro j name hname
      have hj : j < captured.length := hsize ▸ (List.getElem?_eq_some_iff.1 hname).1
      have hv : captured[j]? = some captured[j] := List.getElem?_eq_getElem hj
      exact ⟨captured[j], kept j, hv, hkept j name hname, hrelated j _ hv⟩

/-- The parameters are variables. -/
theorem Callee.params_le {pool : Array Value} {c : Closure} {f : Lambda}
    {values : List (Value Lambda)} {constants : Array Value} {is : List Instruction} {c' : Setting}
    (h : Callee pool c f values t constants is c') : c.body.params ≤ c.body.locals := by
  have hdefinitions := (h.writes.extends (h.coherent.enterFunction _ _)).definitions
  have hsites : (t.enterFunction f.name f.params).inner.definitions = f.params.length := by
    have := congrArg Names.sites (SymbolTable.names_enterFunction t f.name f.params)
    rw [Names.sites_ofFunction] at this
    exact this
  rw [h.params, h.locals, ← hsites]
  exact hdefinitions

/-- What a function knows of itself when it is called. -/
theorem Callee.knows {n : Nat} {c : Closure} {stack : List Value} {hn : g.left = n + 1} {f : Lambda}
    {self : Value Lambda} {values : List (Value Lambda)} {constants : Array Value}
    {is : List Instruction} {c' : Setting} (h : Callee r.pool c f values t constants is c')
    (hself : Related r.pool c.value self) :
    Knows r (g.callee c (c'.symbols.inner.captures.toList.map (·.name)) ip stack n hn)
      (t.enterFunction f.name f.params) (f.activation self values ws) := by
  have houter := SymbolTable.outer_enterFunction t f.name f.params
  refine .function ?_ ?_ ?_ hself h.captured ?_ (List.cons_ne_nil _ _)
  · rw [houter]
    exact List.cons_ne_nil _ _
  · rw [houter, topScope, ← h.globals]
    rfl
  · rw [houter, ← h.around]
    exact List.map_fst_zip (Nat.le_of_eq h.length)
  · exact List.append_ne_nil_of_right_ne_nil _ (List.cons_ne_nil _ _)

theorem Callee.fits {n : Nat} {c : Closure} {stack : List Value} {hn : g.left = n + 1} {f : Lambda}
    {values : List (Value Lambda)} {constants : Array Value} {is : List Instruction} {c' : Setting}
    (h : Callee r.pool c f values t constants is c') :
    Fits r (g.callee c (c'.symbols.inner.captures.toList.map (·.name)) ip stack n hn) c' :=
  ⟨h.inPool, List.prefix_refl _, fun _ => Nat.le_of_eq h.locals.symm⟩

/-- **A closure is called.** -/
theorem Standing.callClosure {c : Closure} {identity : Nat} {f : Lambda}
    {values : List (Value Lambda)} (h : Standing r g t s ip (temps ++ c.value :: vs) m)
    (hcode : g.closure.body.code.Placed ip (.call (UInt8.ofNat vs.length) :: rest))
    (hlt : vs.length < 256) (hc : Related r.pool c.value (.closure identity f values))
    (hvs : List.Forall₂ (Related r.pool) vs ws) (hdepth : g.left ≤ depth)
    (hbodies : ∀ n depth, g.left = n + 1 → n ≤ depth → BodySim r n depth) :
    Sim r g (Eval.callAt depth (.closure identity f values) ws s) m (weight r.longest g.left)
      (Pushed r g t (ip + 2) temps) := by
  have hlen := hvs.length_eq
  obtain ⟨t', constants, is, c', hcallee⟩ := hc.callee
  have hexecute : ∀ (frame : Frame) locals (m : Machine),
      Exec.execute frame (.call (UInt8.ofNat vs.length))
        (m.withStack (g.below ++ (locals ++ (temps ++ c.value :: vs)))) =
      Exec.enter c ((g.below ++ (locals ++ temps)).length + 1) vs.length
        (m.withStack ((g.below ++ (locals ++ temps)) ++ c.value :: vs)) :=
    fun frame locals m => execute_call frame hlt g.below
  by_cases harity : ws.length = f.params.length
  · have harity' : vs.length = c.body.params := by rw [hlen, harity, hcallee.params]
    cases hleft : g.left with
    | zero =>
      -- No more calls can be nested.
      refine Sim.of_halt _ (h.leads hcode fun locals m' hready => ?_)
      have hfull : ∀ xs, maxFrames ≤ (m'.withStack xs).frames.length := fun xs => by
        have := g.depth
        rw [show (m'.withStack xs).frames = _ from hready.frames, List.length_cons]
        omega
      rw [hexecute, Exec.enter_of_full harity' (.inl (hfull _))]
      exact .overflow (hready.world.withStack _).sound
    | succ n =>
      obtain ⟨depth, rfl⟩ : ∃ d, depth = d + 1 := ⟨depth - 1, by omega⟩
      have hcall : Eval.callAt (depth + 1) (.closure identity f values) ws s =
          Eval.within (f.activation (.closure identity f values) values ws)
            (Eval.block (Eval.callAt depth) f.body) s := by
        rw [Eval.callAt, if_neg (fun h => h harity)]
      rw [hcall, weight]
      refine Leads.bind (Q := fun m' => ∃ locals m₀, Ready r g s (ip + 2) locals temps m₀ ∧
        Standing r (g.callee c (c'.symbols.inner.captures.toList.map (·.name)) (ip + 2)
          (g.below ++ (locals ++ temps)) n hleft) (t'.enterFunction f.name f.params)
          ⟨f.activation (.closure identity f values) values ws, s.world⟩ 0 [] m')
        (h.leads hcode fun locals m' hready => ?_) ?_
      · rw [hexecute]
        refine (hready.enter hleft harity' hcallee.params_le
          (hcallee.coherent.enterFunction f.name f.params)
          (SymbolTable.names_enterFunction t' f.name f.params).symm (hcallee.knows hc) hvs rfl).mono
          (fun m₁ hstanding => ⟨locals, m', hready.drop, hstanding⟩) fun _ _ => id
      · rintro m' ⟨locals, m₀, hready, hstanding⟩
        have hglobal : (t'.enterFunction f.name f.params).isGlobal = false := by
          rw [SymbolTable.isGlobal, SymbolTable.outer_enterFunction]
          rfl
        have hsim := hbodies n depth hleft (by omega) rfl hglobal hcallee.writes hcallee.fits
          (hcallee.code ▸ Code.Placed.all is) hstanding
        refine Sim.mono (hsim.within fun w world m' hreturned =>
          hreturned.pushed hready hleft h.coherent h.names h.knows) ?_ fun _ _ _ => id
        refine Nat.mul_le_mul_right _ ?_
        have := r.bounded c.body hcallee.routine
        rw [hcallee.code, List.size_toArray, Instruction.length_encodeAll] at this
        exact this
  · have hfail : Eval.callAt depth (.closure identity f values) ws s =
        .error (.error (.wrongArity f.params.length ws.length)) s := by
      cases depth with
      | zero => rw [Eval.callAt, if_pos harity]; rfl
      | succ depth => rw [Eval.callAt, if_pos harity]; rfl
    rw [hfail]
    refine Leads.mono (h.leads hcode fun locals m' hready => ?_) (weight_pos _ _) (fun _ => id)
      fun _ _ => id
    rw [hexecute, Exec.enter_of_arity (by rw [hlen, hcallee.params]; exact harity), hlen,
      hcallee.params]
    exact .fault rfl rfl (hready.world.withStack _)

/-- **A builtin function is called.** -/
theorem Standing.callBuiltin {b : Builtin} (h : Standing r g t s ip (temps ++ .builtin b :: vs) m)
    (hcode : g.closure.body.code.Placed ip (.call (UInt8.ofNat vs.length) :: rest))
    (hlt : vs.length < 256) (hvs : List.Forall₂ (Related r.pool) vs ws) :
    Sim r g (Eval.callAt depth (.builtin b) ws s) m 1 (Pushed r g t (ip + 2) temps) := by
  have hcall : Eval.callAt depth (.builtin b) ws s = (do
      let v ← Eval.ofExcept (b.call ws)
      modify fun s : EvalState =>
        { s with world := { s.world with output := s.world.output ++ b.output ws } }
      pure v : Eval (Value Lambda)) s := by
    cases depth <;> rfl
  rw [hcall]
  refine h.leads hcode fun locals m' hready => ?_
  rw [execute_call _ hlt]
  have hresult := (Related.structural r.pool).call_rel b hvs
  have houtput := (Related.structural r.pool).output_eq b hvs
  -- The two results are related, whatever the function computes.
  generalize hx : b.call vs = x at hresult
  generalize b.call ws = y at hresult
  cases hresult with
  | @ok v w hvw =>
    have hroom : (g.below ++ (locals ++ temps) ++ Value.builtin b :: vs).length ≤ stackSize := by
      rw [← stack_append]
      exact hready.room
    refine (congrArg (Lands _ _) (Exec.callBuiltin_of_ok (.builtin b) hroom hx)).mpr ?_
    have hworld : WorldRel r { m' with output := m'.output ++ b.output vs }
        { s.world with output := s.world.output ++ b.output ws } :=
      ⟨hready.world.constants, hready.world.globals, hready.world.identity,
        by rw [← hready.world.output, ← houtput], hready.world.budget⟩
    have hroom' : (g.below ++ (locals ++ (temps ++ [v]))).length ≤ stackSize := by
      rw [stack_append, List.length_append, List.length_singleton]
      rw [List.length_append, List.length_cons] at hroom
      omega
    refine ⟨v, hvw, ?_⟩
    rw [← stack_append]
    have hready' : Ready r g { s with world := { s.world with
        output := s.world.output ++ b.output ws } } (ip + 2) locals (temps ++ [v])
        { m' with output := m'.output ++ b.output vs } :=
      ⟨hworld, hready.frames, hready.size, hready.values, hroom'⟩
    exact hready'.standing h.coherent h.names h.knows
  | error he =>
    refine (congrArg (Lands _ _) (Exec.callBuiltin_of_error (.builtin b) hx)).mpr ?_
    exact .fault he rfl (hready.world.withStack _)

/-- **A call.** -/
theorem Standing.call (h : Standing r g t s ip (temps ++ v :: vs) m)
    (hcode : g.closure.body.code.Placed ip (.call (UInt8.ofNat vs.length) :: rest))
    (hlt : vs.length < 256) (hv : Related r.pool v w) (hvs : List.Forall₂ (Related r.pool) vs ws)
    (hdepth : g.left ≤ depth)
    (hbodies : ∀ n depth, g.left = n + 1 → n ≤ depth → BodySim r n depth) :
    Sim r g (Eval.callAt depth w ws s) m (weight r.longest g.left)
      (Pushed r g t (ip + 2) temps) := by
  cases hv with
  | @closure identity body captured f values names kept hcompiled hsize hlen hkept hrelated =>
    exact h.callClosure (c := ⟨identity, body, captured⟩) hcode hlt
      (.closure kept hcompiled hsize hlen hkept hrelated) hvs hdepth hbodies
  | builtin b =>
    exact (h.callBuiltin hcode hlt hvs).mono (weight_pos _ _) fun _ _ _ => id
  | number | boolean | string | null | array | map =>
    refine Leads.mono (h.leads hcode fun locals m' hready => ?_) (weight_pos _ _) (fun _ => id)
      fun _ _ => id
    rw [execute_call _ hlt]
    cases depth <;> exact .fault rfl rfl (hready.world.withStack _)

end

end StackScript
