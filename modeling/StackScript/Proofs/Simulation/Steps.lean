import StackScript.Proofs.Machine.Globals
import StackScript.Proofs.Simulation.State

/-!
# One instruction at a time

For each kind of instruction, what the machine does when it stands where the
evaluator stands. Every lemma of this file is about one round. None of them
looks into the array that holds the stack: they rest on the equations of
`Machine.withStack`.
-/

namespace StackScript

open Instruction (encodeAll sizeAll)

/-- A machine whose newest frame is about to change the stack. -/
structure Ready (r : Course) (g : Stage) (s : EvalState) (ip : Nat) (locals temps : List Value)
    (m : Machine) : Prop where
  /-- The machine shares the evaluator's world. -/
  world : WorldRel r m s.world
  /-- The frame is the newest. -/
  frames : m.frames = ⟨g.closure, ip, g.below.length⟩ :: g.callers
  /-- All its variables are there. -/
  size : locals.length = g.closure.body.locals
  /-- They have the evaluator's values. -/
  values : ∀ (i : Nat) v, locals[i]? = some v → Related r.pool v (s.here.locals i)
  /-- The values fit on the stack. -/
  room : (g.below ++ (locals ++ temps)).length ≤ stackSize

/-- The machine stands where the evaluator stands, with one more value on the
stack, which is the evaluator's. -/
def Pushed (r : Course) (g : Stage) (t : SymbolTable) (ip : Nat) (temps : List Value)
    (w : Value Lambda) (s : EvalState) (m : Machine) : Prop :=
  ∃ v, Related r.pool v w ∧ Standing r g t s ip (temps ++ [v]) m

theorem WorldRel.withStack {r : Course} {m : Machine} {w : World} (h : WorldRel r m w)
    (xs : List Value) : WorldRel r (m.withStack xs) w :=
  ⟨h.constants, h.globals, h.identity, h.output, h.budget⟩

section

variable {r : Course} {g : Stage} {t t' : SymbolTable} {s s' : EvalState} {ip ip' : Nat}
  {temps locals : List Value} {m : Machine} {i : Instruction} {rest : List Instruction}
  {v : Value} {w : Value Lambda} {fault : Option (RuntimeError × World)} {Q : Machine → Prop}

/-- The machine stands again. -/
theorem Ready.standing (h : Ready r g s' ip locals temps m) (hcoherent : t.Coherent)
    (hnames : s'.here.names = t.inner.names) (hknows : Knows r g t s'.here) :
    Standing r g t s' ip temps (m.withStack (g.below ++ (locals ++ temps))) :=
  ⟨hcoherent, hnames, hknows, h.world.withStack _, h.frames,
    locals, h.size, h.values, Machine.holds_withStack h.room⟩

/-- **One round**: the instruction at which the machine stands is executed. -/
theorem Standing.leads (h : Standing r g t s ip temps m)
    (hcode : g.closure.body.code.Placed ip (i :: rest))
    (hexec : ∀ locals m', Ready r g s (ip + i.size) locals temps m' →
      Lands Q (Halts r fault) (Exec.execute ⟨g.closure, ip, g.below.length⟩ i
        (m'.withStack (g.below ++ (locals ++ temps))))) :
    Leads m 1 Q (Halts r fault) := by
  obtain ⟨locals, hsize, hlocals, hholds⟩ := h.stack
  refine Leads.execute h.frames hcode.decodeAt (fun hspent => ?_) fun budget journal hfree => ?_
  · rcases h.world.budget with hnone | hlimited
    · rw [hnone] at hspent; cases hspent
    · exact .spent hlimited h.world.sound
  · have hready : Ready r g s (ip + i.size) locals temps (m.past ⟨g.closure, ip, g.below.length⟩
        g.callers i budget journal) :=
      ⟨⟨h.world.constants, h.world.globals, h.world.identity, h.world.output,
        h.world.budget.imp_left hfree⟩, rfl, hsize, hlocals, hholds.room⟩
    have hstack : (m.past ⟨g.closure, ip, g.below.length⟩ g.callers i budget journal).withStack
        (g.below ++ (locals ++ temps)) =
        m.past ⟨g.closure, ip, g.below.length⟩ g.callers i budget journal := by
      have := congrArg (fun m : Machine =>
        m.past ⟨g.closure, ip, g.below.length⟩ g.callers i budget journal) hholds.eq
      exact this
    have := hexec locals _ hready
    rwa [hstack] at this

/-- A value is pushed, if there is room for it. -/
theorem Ready.push (h : Ready r g s' ip locals temps m) (hcoherent : t.Coherent)
    (hnames : s'.here.names = t.inner.names) (hknows : Knows r g t s'.here)
    (hv : Related r.pool v w) :
    Lands (Pushed r g t ip temps w s') (Halts r fault)
      (Exec.push v (m.withStack (g.below ++ (locals ++ temps)))) := by
  by_cases hroom : (g.below ++ (locals ++ temps)).length < stackSize
  · rw [Exec.push_of_lt v hroom, List.append_assoc, List.append_assoc]
    have hready : Ready r g s' ip locals (temps ++ [v]) m := by
      refine ⟨h.world, h.frames, h.size, h.values, ?_⟩
      rw [← List.append_assoc, ← List.append_assoc, List.length_append, List.append_assoc]
      exact hroom
    exact ⟨v, hv, hready.standing hcoherent hnames hknows⟩
  · rw [Exec.push_of_le v (Nat.not_lt.1 hroom)]
    exact .overflow (h.world.withStack _).sound

/-- **An instruction that pushes a value of the evaluator.** -/
theorem Standing.push (h : Standing r g t s ip temps m)
    (hcode : g.closure.body.code.Placed ip (i :: rest))
    (hexec : ∀ locals m', Ready r g s (ip + i.size) locals temps m' → ∃ v, Related r.pool v w ∧
      Exec.execute ⟨g.closure, ip, g.below.length⟩ i (m'.withStack (g.below ++ (locals ++ temps))) =
        Exec.push v (m'.withStack (g.below ++ (locals ++ temps)))) :
    Sim r g (.ok w s) m 1 (Pushed r g t (ip + i.size) temps) := by
  refine h.leads hcode fun locals m' hready => ?_
  obtain ⟨v, hv, heq⟩ := hexec locals m' hready
  rw [heq]
  exact hready.push h.coherent h.names h.knows hv

/-! ## Names -/

theorem lookup_map {α β : Type} (f : α → β) (name : String) (xs : List (String × α)) :
    (xs.map fun x => (x.1, f x.2)).lookup name = (xs.lookup name).map f := by
  induction xs with
  | nil => rfl
  | cons x xs ih =>
    rw [List.map_cons, List.lookup_cons, List.lookup_cons]
    split
    · rfl
    · exact ih

/-- The variable of a frame stands on the stack above what was there when the
frame was new. -/
theorem getElem?_local {below locals temps : List Value} {n : Nat} {v : Value}
    (h : locals[n]? = some v) : (below ++ (locals ++ temps))[below.length + n]? = some v := by
  rw [List.getElem?_append_right (Nat.le_add_right _ _), Nat.add_sub_cancel_left,
    List.getElem?_append_left (List.getElem?_eq_some_iff.1 h).1, h]

/-- A variable of the frame is in use. -/
theorem Ready.localSlot {n : Nat} (h : Ready r g s ip' locals temps m) (op : Op)
    (hlocal : n < g.closure.body.locals) :
    Exec.localSlot ⟨g.closure, ip, g.below.length⟩ op n
      (m.withStack (g.below ++ (locals ++ temps))) =
    .ok (g.below.length + n) (m.withStack (g.below ++ (locals ++ temps))) := by
  have hin : ¬(decide (g.closure.body.locals ≤ n) ||
      decide ((g.below ++ (locals ++ temps)).length ≤ g.below.length + n)) = true := by
    rw [Bool.or_eq_true, decide_eq_true_iff, decide_eq_true_iff, List.length_append,
      List.length_append, h.size]
    omega
  show (if (decide (g.closure.body.locals ≤ n) ||
      decide ((g.below ++ (locals ++ temps)).length ≤ g.below.length + n)) = true
    then Exec.fail (.invalidOperand op n) else pure (g.below.length + n) : Exec Nat)
      (m.withStack (g.below ++ (locals ++ temps))) = _
  rw [if_neg hin]
  rfl

theorem Ready.getLocal {n : Nat} (h : Ready r g s ip' locals temps m) (hn : n < 256)
    (hlocal : n < g.closure.body.locals) : ∃ v, Related r.pool v (s.here.locals n) ∧
      Exec.execute ⟨g.closure, ip, g.below.length⟩ (.getLocal (UInt8.ofNat n))
        (m.withStack (g.below ++ (locals ++ temps))) =
      Exec.push v (m.withStack (g.below ++ (locals ++ temps))) := by
  have hlt : n < locals.length := h.size ▸ hlocal
  obtain ⟨v, hv⟩ : ∃ v, locals[n]? = some v := ⟨_, List.getElem?_eq_getElem hlt⟩
  refine ⟨v, h.values n v hv, ?_⟩
  have hslot : (m.withStack (g.below ++ (locals ++ temps))).slot (g.below.length + n) = v := by
    rw [Exec.slot_withStack, getElem?_local hv, Option.getD_some]
  rw [Exec.execute, UInt8.toNat_ofNat_of_lt' hn, Exec.bind_of_ok _ (h.localSlot .getLocal hlocal)]
  show Exec.push ((m.withStack (g.below ++ (locals ++ temps))).slot (g.below.length + n)) _ = _
  rw [hslot]

theorem surroundings_of_function {globals : List (String × Binder)}
    (h : s.here.globals = some globals) (name : String) :
    s.surroundings.lookup name =
      ((s.here.names.bound.lookup name).map s.read).or (s.here.around.lookup name) := by
  have hmap := lookup_map s.read name s.here.names.bound
  rw [EvalState.surroundings, h, ← hmap]
  exact List.lookup_append

theorem lookup_of_surroundings {globals : List (String × Binder)}
    (h : s.here.globals = some globals) {name : String} (hw : s.surroundings.lookup name = some w) :
    s.lookup name = some w := by
  rw [surroundings_of_function h] at hw
  rw [EvalState.lookup]
  cases hbound : s.here.names.bound.lookup name with
  | some b =>
    rw [hbound] at hw
    exact hw
  | none =>
    rw [hbound] at hw
    dsimp only
    rw [show s.here.around.lookup name = some w from hw]

/-- **A name that has a place in the innermost scope** is loaded with the value
that a function literal here would keep of it. -/
theorem Standing.load_seen {c : Setting} {x : Symbol} (h : Standing r g c.symbols s ip temps m)
    (hfits : Fits r g c) (houter : c.symbols.outer ≠ []) (hseen : x.SeenIn c.symbols.inner)
    (hload : x.load? = some i) (hcode : g.closure.body.code.Placed ip (i :: rest)) :
    ∃ w, s.surroundings.lookup x.name = some w ∧
      Sim r g (.ok w s) m 1 (Pushed r g c.symbols (ip + i.size) temps) := by
  cases h.knows with
  | top hnil => exact (houter hnil).elim
  | function _ hglobals haround hself hcaptured _ _ =>
    have hnames : s.here.names.bound = c.symbols.inner.own := by rw [h.names]; rfl
    have hread : ∀ n, s.read (.site n) = s.here.locals n := fun n => by
      rw [EvalState.read, hglobals]
      rfl
    have hsurroundings := surroundings_of_function hglobals x.name
    rw [hnames] at hsurroundings
    obtain ⟨name, storage, n⟩ := x
    cases storage with
    | frame =>
      have hown : c.symbols.inner.own.lookup name = some (.site n) := hseen
      obtain ⟨hn, ⟨⟩⟩ := Option.ite_none_right_eq_some.1 hload
      -- A variable that is bound is one that the frame has room for.
      have hvalid : c.symbols.inner.Valid := by
        obtain ⟨next, further, hcons⟩ := List.exists_cons_of_ne_nil houter
        have := h.coherent
        rw [SymbolTable.Coherent, hcons] at this
        exact this.valid
      have hlt := hvalid.bounded name n (mem_of_lookup hown)
      refine ⟨s.here.locals n, ?_, h.push hcode fun locals m' hready => ?_⟩
      · rw [hsurroundings, hown, Option.map_some, hread, Option.some_or]
      · exact hready.getLocal hn (Nat.lt_of_lt_of_le hlt (hfits.definitions houter))
    | itself =>
      have hown : c.symbols.inner.own.lookup name = some .itself := hseen
      cases hload
      refine ⟨s.here.self, ?_, h.push hcode fun locals m' _ => ⟨_, hself, rfl⟩⟩
      rw [hsurroundings, hown, Option.map_some, Option.some_or]
      rfl
    | captured =>
      obtain ⟨hown, source, hsource, hname⟩ := hseen
      obtain ⟨hn, ⟨⟩⟩ := Option.ite_none_right_eq_some.1 hload
      -- What is captured so far is the beginning of what the closure has been
      -- given.
      have hplace : g.names[n]? = some name := by
        obtain ⟨more, hmore⟩ := hfits.captures
        rw [← Array.getElem?_toList] at hsource
        have hmap : (c.symbols.inner.captures.toList.map (·.name))[n]? = some name := by
          rw [List.getElem?_map, hsource, Option.map_some, hname]
        rw [← hmore, List.getElem?_append_left (List.getElem?_eq_some_iff.1 hmap).1, hmap]
      obtain ⟨v, w, hv, hw, hvw⟩ := hcaptured n name hplace
      refine ⟨w, ?_, h.push hcode fun locals m' _ => ⟨v, hvw, ?_⟩⟩
      · rw [hsurroundings, hown, Option.map_none, Option.none_or, hw]
      · rw [Exec.execute, UInt8.toNat_ofNat_of_lt' hn]
        dsimp only
        rw [hv]
    | global | builtin => exact hseen.elim

/-- A name that no function binds is a global or a builtin function. -/
theorem Standing.lookup_shared {name : String} (h : Standing r g t s ip temps m)
    (hown : t.outer ≠ [] → t.inner.own.lookup name = none) (haround : name ∉ namesAround t.outer) :
    s.lookup name = match (topScope t.inner t.outer).own.lookup name with
      | some binder => some (s.readGlobal binder)
      | none => (Builtin.ofName? name).map .builtin := by
  have hnames : s.here.names.bound = t.inner.own := by rw [h.names]; rfl
  rw [EvalState.lookup, hnames]
  cases h.knows with
  | top hnil hglobals haround' hself =>
    rw [hnil, topScope, haround', hglobals]
    cases t.inner.own.lookup name with
    | none => rfl
    | some binder =>
      cases binder with
      | site n => exact congrArg some (by rw [EvalState.read, hglobals]; rfl)
      | itself => exact congrArg some hself
  | function houter hglobals haround' =>
    rw [hown houter, lookup_eq_none_iff_notMem.2 (haround' ▸ haround), hglobals]
    rfl

/-- **A name that has been found** is loaded with the evaluator's value. -/
theorem Standing.load_found {c : Setting} {x : Symbol} {name : String}
    (h : Standing r g c.symbols s ip temps m) (hfits : Fits r g c)
    (hfound : SymbolTable.Found name x c.symbols.inner c.symbols.outer)
    (hload : x.load? = some i) (hcode : g.closure.body.code.Placed ip (i :: rest)) :
    ∃ w, s.lookup name = some w ∧
      Sim r g (.ok w s) m 1 (Pushed r g c.symbols (ip + i.size) temps) := by
  cases hfound with
  | seen houter hname hseen =>
    subst hname
    obtain ⟨w, hw, hsim⟩ := h.load_seen hfits houter hseen hload hcode
    cases h.knows with
    | top hnil => exact (houter hnil).elim
    | function _ hglobals => exact ⟨w, lookup_of_surroundings hglobals hw, hsim⟩
  | shared _ htop hown haround =>
    rcases h.coherent.isTop.seen name x htop with hglobal | ⟨hbuiltin, hhidden, b, hplace, hb⟩
    · obtain ⟨name', storage, n⟩ := x
      cases hglobal
      obtain ⟨hn, ⟨⟩⟩ := Option.ite_none_right_eq_some.1 hload
      have hsite := Scope.lookup_own_of_find? htop rfl
      refine ⟨s.world.globals n, ?_, h.push hcode fun locals m' hready => ?_⟩
      · rw [h.lookup_shared hown haround, hsite]
        rfl
      · refine ⟨m'.globals.get n, hready.world.globals n, ?_⟩
        rw [Exec.execute, UInt16.toNat_ofNat_of_lt' hn]
        rfl
    · obtain ⟨name', storage, n⟩ := x
      cases hbuiltin
      obtain ⟨hn, ⟨⟩⟩ := Option.ite_none_right_eq_some.1 hload
      refine ⟨.builtin b, ?_, h.push hcode fun locals m' _ => ⟨.builtin b, .builtin b, ?_⟩⟩
      · rw [h.lookup_shared hown haround, hhidden, hb]
        rfl
      · rw [Exec.execute, UInt8.toNat_ofNat_of_lt' hn]
        dsimp only
        rw [hplace]

/-! ## Operations -/

theorem stack_append (below locals temps ys : List Value) :
    below ++ (locals ++ (temps ++ ys)) = (below ++ (locals ++ temps)) ++ ys := by
  rw [List.append_assoc, List.append_assoc]

/-- What is below the uppermost values. -/
theorem Ready.drop {ys : List Value} (h : Ready r g s ip locals (temps ++ ys) m) :
    Ready r g s ip locals temps m := by
  refine ⟨h.world, h.frames, h.size, h.values, Nat.le_trans ?_ h.room⟩
  rw [stack_append]
  exact (List.prefix_append _ _).length_le

theorem Ready.pop (h : Ready r g s ip locals (temps ++ [v]) m) :
    Exec.pop (m.withStack (g.below ++ (locals ++ (temps ++ [v])))) =
      .ok v (m.withStack (g.below ++ (locals ++ temps))) := by
  rw [stack_append]
  exact Exec.pop_append v (stack_append .. ▸ h.room)

theorem Ready.popMany {ys : List Value} (h : Ready r g s ip locals (temps ++ ys) m) :
    Exec.popMany ys.length (m.withStack (g.below ++ (locals ++ (temps ++ ys)))) =
      .ok ys (m.withStack (g.below ++ (locals ++ temps))) := by
  rw [stack_append]
  exact Exec.popMany_append (stack_append .. ▸ h.room)

/-- The result of an operation is pushed, or its error ends the run. -/
theorem Ready.pushResult {x : Except RuntimeError Value} {y : Except RuntimeError (Value Lambda)}
    (h : Ready r g s ip locals temps m) (hcoherent : t.Coherent)
    (hnames : s.here.names = t.inner.names) (hknows : Knows r g t s.here)
    (hxy : ResultRel (Related r.pool) x y) :
    Lands (Target r g (Pushed r g t ip temps) (Eval.ofExcept y s))
      (Halts r (faultOf (Eval.ofExcept y s)))
      ((do Exec.push (← Exec.ofExcept x) : Exec Unit)
        (m.withStack (g.below ++ (locals ++ temps)))) := by
  cases hxy with
  | ok hvw => exact h.push hcoherent hnames hknows hvw
  | error he => exact .fault he rfl (h.world.withStack _)

/-- **An operator before its operand.** -/
theorem Standing.unary {op : UnaryOp} (h : Standing r g t s ip (temps ++ [v]) m)
    (hcode : g.closure.body.code.Placed ip (i :: rest))
    (hi : ∀ frame, Exec.execute frame i = Exec.unary op) (hv : Related r.pool v w) :
    Sim r g (Eval.ofExcept (Value.unary op w) s) m 1 (Pushed r g t (ip + i.size) temps) := by
  refine h.leads hcode fun locals m' hready => ?_
  rw [hi, Exec.unary, Exec.bind_of_ok _ hready.pop]
  exact hready.drop.pushResult h.coherent h.names h.knows
    ((Related.structural r.pool).unary_rel op hv)

/-- **An operator between its operands.** -/
theorem Standing.binary {op : BinaryOp} {a b : Value} {x y : Value Lambda}
    (h : Standing r g t s ip (temps ++ [a] ++ [b]) m)
    (hcode : g.closure.body.code.Placed ip (i :: rest))
    (hi : ∀ frame, Exec.execute frame i = Exec.binary op) (ha : Related r.pool a x)
    (hb : Related r.pool b y) :
    Sim r g (Eval.ofExcept (Value.binary op x y) s) m 1 (Pushed r g t (ip + i.size) temps) := by
  refine h.leads hcode fun locals m' hready => ?_
  rw [hi, Exec.binary, Exec.bind_of_ok _ hready.pop, Exec.bind_of_ok _ hready.drop.pop]
  exact hready.drop.drop.pushResult h.coherent h.names h.knows
    ((Related.structural r.pool).binary_rel op ha hb)

/-- **A look-up.** -/
theorem Standing.index {a b : Value} {x y : Value Lambda}
    (h : Standing r g t s ip (temps ++ [a] ++ [b]) m)
    (hcode : g.closure.body.code.Placed ip (.index :: rest)) (ha : Related r.pool a x)
    (hb : Related r.pool b y) :
    Sim r g (Eval.ofExcept (Value.lookup x y) s) m 1
      (Pushed r g t (ip + Instruction.index.size) temps) := by
  refine h.leads hcode fun locals m' hready => ?_
  rw [Exec.execute, Exec.bind_of_ok _ hready.pop, Exec.bind_of_ok _ hready.drop.pop]
  exact hready.drop.drop.pushResult h.coherent h.names h.knows
    ((Related.structural r.pool).lookup_rel ha hb)

/-- **An array.** -/
theorem Standing.makeArray {vs : List Value} {ws : List (Value Lambda)}
    (h : Standing r g t s ip (temps ++ vs) m) (hlt : vs.length < 65536)
    (hcode : g.closure.body.code.Placed ip (.makeArray (UInt16.ofNat vs.length) :: rest))
    (hvs : List.Forall₂ (Related r.pool) vs ws) :
    Sim r g (.ok (.array ws) s) m 1
      (Pushed r g t (ip + (Instruction.makeArray (UInt16.ofNat vs.length)).size) temps) := by
  refine h.leads hcode fun locals m' hready => ?_
  rw [Exec.execute, UInt16.toNat_ofNat_of_lt' hlt, Exec.bind_of_ok _ hready.popMany]
  exact hready.drop.push h.coherent h.names h.knows ((Related.structural r.pool).array hvs)

/-- **A map.** -/
theorem Standing.makeMap {vs : List Value} {ws : List (Value Lambda)}
    (h : Standing r g t s ip (temps ++ vs) m) (hlt : vs.length < 65536)
    (hcode : g.closure.body.code.Placed ip (.makeMap (UInt16.ofNat vs.length) :: rest))
    (hvs : List.Forall₂ (Related r.pool) vs ws) :
    Sim r g ((do pure (.map (← Eval.ofExcept (Value.insertAll [] ws))) : Eval (Value Lambda)) s) m 1
      (Pushed r g t (ip + (Instruction.makeMap (UInt16.ofNat vs.length)).size) temps) := by
  refine h.leads hcode fun locals m' hready => ?_
  rw [Exec.execute, UInt16.toNat_ofNat_of_lt' hlt, Exec.bind_of_ok _ hready.popMany]
  have hentries := (Related.structural r.pool).insertAll_rel hvs .nil
  generalize Value.insertAll [] vs = x at hentries ⊢
  generalize Value.insertAll [] ws = y at hentries ⊢
  cases hentries with
  | ok hxy =>
    exact hready.drop.push h.coherent h.names h.knows ((Related.structural r.pool).map hxy)
  | error he => exact .fault he rfl (hready.world.withStack _)

/-- **A value is discarded.** -/
theorem Standing.pop (h : Standing r g t s ip (temps ++ [v]) m)
    (hcode : g.closure.body.code.Placed ip (.pop :: rest)) :
    Sim r g (.ok () s) m 1
      (fun _ s' m' =>
        Standing r g t s' (ip + Instruction.pop.size) temps m' ∧ m'.lastPopped = v) := by
  refine h.leads hcode fun locals m' hready => ?_
  rw [Exec.execute, Exec.bind_of_ok _ hready.pop]
  have hready' : Ready r g s (ip + Instruction.pop.size) locals temps { m' with lastPopped := v } :=
    ⟨⟨hready.world.constants, hready.world.globals, hready.world.identity, hready.world.output,
      hready.world.budget⟩, hready.frames, hready.size, hready.values, hready.drop.room⟩
  exact ⟨hready'.standing h.coherent h.names h.knows, rfl⟩

/-! ## Jumps -/

/-- The newest frame goes on elsewhere. -/
theorem Ready.jumpTo (h : Ready r g s ip locals temps m) (target : Nat) (hcoherent : t.Coherent)
    (hnames : s.here.names = t.inner.names) (hknows : Knows r g t s.here) :
    Standing r g t s target temps ((m.withStack (g.below ++ (locals ++ temps))).jumpTo target) := by
  have heq : (m.withStack (g.below ++ (locals ++ temps))).jumpTo target =
      { m with frames := ⟨g.closure, target, g.below.length⟩ :: g.callers }.withStack
        (g.below ++ (locals ++ temps)) := by
    rw [Machine.jumpTo, show (m.withStack (g.below ++ (locals ++ temps))).frames = _ from h.frames]
    rfl
  have hready : Ready r g s target locals temps
      { m with frames := ⟨g.closure, target, g.below.length⟩ :: g.callers } :=
    ⟨⟨h.world.constants, h.world.globals, h.world.identity, h.world.output, h.world.budget⟩, rfl,
      h.size, h.values, h.room⟩
  rw [heq]
  exact hready.standing hcoherent hnames hknows

/-- **A jump.** -/
theorem Standing.jump {target : Nat} (h : Standing r g t s ip temps m) (hlt : target < 65536)
    (hcode : g.closure.body.code.Placed ip (.jump (UInt16.ofNat target) :: rest)) :
    Leads m 1 (Standing r g t s target temps) (Halts r fault) := by
  refine h.leads hcode fun locals m' hready => ?_
  have hjump := hready.jumpTo target h.coherent h.names h.knows
  rw [Exec.execute, UInt16.toNat_ofNat_of_lt' hlt]
  exact hjump

/-- **A jump that is taken if a value does not count as true.** -/
theorem Standing.jumpNotTruthy {target : Nat} (h : Standing r g t s ip (temps ++ [v]) m)
    (hlt : target < 65536)
    (hcode : g.closure.body.code.Placed ip (.jumpNotTruthy (UInt16.ofNat target) :: rest)) :
    Leads m 1 (Standing r g t s (if v.truthy then ip + 3 else target) temps) (Halts r fault) := by
  refine h.leads hcode fun locals m' hready => ?_
  have hjump := hready.drop.jumpTo target h.coherent h.names h.knows
  rw [Exec.execute, UInt16.toNat_ofNat_of_lt' hlt, Exec.bind_of_ok _ hready.pop]
  cases v.truthy with
  | true => exact hready.drop.standing h.coherent h.names h.knows
  | false => exact hjump

/-! ## Variables -/

/-- A name is bound at the top level. -/
theorem bind_of_top (h : s.here.globals = none) (name : String) (w : Value Lambda) :
    s.bind name w = ⟨{ s.here with names := s.here.names.bind name },
      { s.world with globals := setVariable s.world.globals s.here.names.sites w }⟩ := by
  obtain ⟨⟨names, values, self, around, globals⟩, world⟩ := s
  cases h
  rfl

/-- A name is bound in a function. -/
theorem bind_of_function {globals : List (String × Binder)} (h : s.here.globals = some globals)
    (name : String) (w : Value Lambda) :
    s.bind name w = ⟨{ s.here with
      names := s.here.names.bind name
      locals := setVariable s.here.locals s.here.names.sites w }, s.world⟩ := by
  obtain ⟨⟨names, values, self, around, globals⟩, world⟩ := s
  cases h
  rfl

/-- **A value becomes that of a new variable.** -/
theorem Standing.store {c : Setting} {name : String}
    (h : Standing r g c.symbols s ip (temps ++ [v]) m)
    (hfits : Fits r g { c with symbols := (c.symbols.define name).2 })
    (hstore : (c.symbols.define name).1.store? = some i)
    (hcode : g.closure.body.code.Placed ip (i :: rest)) (hv : Related r.pool v w) :
    Leads m 1 (Standing r g (c.symbols.define name).2 (s.bind name w) (ip + i.size) temps)
      (Halts r fault) := by
  have hnames : s.here.names.bind name = (c.symbols.define name).2.inner.names := by
    rw [SymbolTable.names_define, ← h.names]
  have hsites : s.here.names.sites = c.symbols.inner.definitions := by
    rw [h.names]
    rfl
  refine h.leads hcode fun locals m' hready => ?_
  cases h.knows with
  | top hnil hglobals haround hself hbelow hcallers =>
    -- At the top level the variable is a global: the stack loses the value, and
    -- nothing of the frame changes.
    have hsymbol : (c.symbols.define name).1 = ⟨name, .global, c.symbols.inner.definitions⟩ := by
      rw [SymbolTable.define, SymbolTable.isGlobal, hnil]
      rfl
    rw [hsymbol] at hstore
    obtain ⟨hn, ⟨⟩⟩ := Option.ite_none_right_eq_some.1 hstore
    rw [Exec.execute, UInt16.toNat_ofNat_of_lt' hn, Exec.bind_of_ok _ hready.pop,
      bind_of_top hglobals, hsites]
    refine Ready.standing (m := { m' with
      globals := m'.globals.set c.symbols.inner.definitions v }) ?_ (h.coherent.define name) hnames
      (.top hnil hglobals haround hself hbelow hcallers)
    refine ⟨⟨hready.world.constants, fun j => ?_, hready.world.identity, hready.world.output,
      hready.world.budget⟩, hready.frames, hready.size, hready.values, hready.drop.room⟩
    show Related r.pool ((m'.globals.set _ v).get j) (if j = _ then w else s.world.globals j)
    rw [Globals.get_set]
    split
    · exact hv
    · exact hready.world.globals j
  | function houter hglobals haround hself hcaptured hbelow hcallers =>
    -- In a function it is a slot of the frame, below the values that are still
    -- on the stack.
    have hglobal : c.symbols.isGlobal = false := by
      obtain ⟨next, further, hcons⟩ := List.exists_cons_of_ne_nil houter
      rw [SymbolTable.isGlobal, hcons]
      rfl
    have hsymbol : (c.symbols.define name).1 = ⟨name, .frame, c.symbols.inner.definitions⟩ := by
      rw [SymbolTable.define, hglobal]
      rfl
    rw [hsymbol] at hstore
    obtain ⟨hn, ⟨⟩⟩ := Option.ite_none_right_eq_some.1 hstore
    have hlocal : c.symbols.inner.definitions < g.closure.body.locals := hfits.definitions houter
    have hlt : g.below.length + c.symbols.inner.definitions <
        (g.below ++ (locals ++ temps)).length := by
      rw [List.length_append, List.length_append, hready.size]
      omega
    have hset :
        (g.below ++ (locals ++ temps)).set (g.below.length + c.symbols.inner.definitions) v =
          g.below ++ (locals.set c.symbols.inner.definitions v ++ temps) := by
      rw [List.set_append_right _ _ (Nat.le_add_right _ _), Nat.add_sub_cancel_left,
        List.set_append_left _ _ (hready.size ▸ hlocal)]
    rw [Exec.execute, UInt8.toNat_ofNat_of_lt' hn,
      Exec.bind_of_ok _ (hready.localSlot .setLocal hlocal), Exec.bind_of_ok _ hready.pop,
      Exec.setSlot_of_lt v hlt, hset, bind_of_function hglobals, hsites]
    refine Ready.standing (m := m') ?_ (h.coherent.define name) hnames ?_
    · refine ⟨hready.world, hready.frames, (List.length_set ..).trans hready.size, fun j u hj => ?_,
        ?_⟩
      · show Related r.pool u (if j = _ then w else s.here.locals j)
        rw [List.getElem?_set] at hj
        by_cases hsame : c.symbols.inner.definitions = j
        · rw [if_pos hsame, if_pos (hready.size ▸ hlocal)] at hj
          cases hj
          rw [if_pos hsame.symm]
          exact hv
        · rw [if_neg hsame] at hj
          rw [if_neg (Ne.symm hsame)]
          exact hready.values j u hj
      · rw [← hset, List.length_set]
        exact hready.drop.room
    · obtain ⟨next, further, hcons⟩ := List.exists_cons_of_ne_nil houter
      refine .function houter ?_ haround hself hcaptured hbelow hcallers
      rw [show (c.symbols.define name).2.outer = c.symbols.outer from rfl, hcons]
      rw [hcons] at hglobals
      exact hglobals

/-! ## Returns -/

/-- The newest frame returns a value. -/
theorem Ready.returnWith (h : Ready r g s ip locals temps m) (hbelow : g.below ≠ [])
    (hcallers : g.callers ≠ []) (hv : Related r.pool v w) :
    Lands (Returned r g w s.world) (Halts r fault)
      (Exec.returnWith v (m.withStack (g.below ++ (locals ++ temps)))) := by
  obtain ⟨under, x, hunder⟩ : ∃ under x, g.below = under ++ [x] :=
    ⟨_, _, (List.dropLast_append_getLast hbelow).symm⟩
  obtain ⟨caller, callers, hcons⟩ := List.exists_cons_of_ne_nil hcallers
  have hbase : g.below.length = under.length + 1 := by
    rw [hunder, List.length_append, List.length_singleton]
  have hstack : g.below ++ (locals ++ temps) = under ++ x :: (locals ++ temps) := by
    rw [hunder, List.append_assoc, List.singleton_append]
  have hroom := h.room
  rw [hstack] at hroom ⊢
  rw [Exec.returnWith_append v x (h.frames.trans (by rw [hcons])) hbase hroom]
  refine ⟨v, under, x, hunder, hv, ?_, hcons.symm, Machine.holds_withStack ?_⟩
  · exact ⟨h.world.constants, h.world.globals, h.world.identity, h.world.output, h.world.budget⟩
  · rw [List.length_append, List.length_cons] at hroom
    rw [List.length_append, List.length_singleton]
    omega

/-- A function's frame has a caller, and the slot of its closure is below it. -/
theorem Standing.function_frame (h : Standing r g t s ip temps m) (houter : t.isGlobal = false) :
    g.below ≠ [] ∧ g.callers ≠ [] := by
  cases h.knows with
  | top hnil =>
    rw [SymbolTable.isGlobal, hnil] at houter
    cases houter
  | function _ _ _ _ _ hbelow hcallers => exact ⟨hbelow, hcallers⟩

/-- **A return of a value.** -/
theorem Standing.returnValue (h : Standing r g t s ip (temps ++ [v]) m)
    (hcode : g.closure.body.code.Placed ip (.returnValue :: rest)) (houter : t.isGlobal = false)
    (hv : Related r.pool v w) : Leads m 1 (Returned r g w s.world) (Halts r fault) := by
  obtain ⟨hbelow, hcallers⟩ := h.function_frame houter
  refine h.leads hcode fun locals m' hready => ?_
  rw [Exec.execute, Exec.bind_of_ok _ hready.pop]
  exact hready.drop.returnWith hbelow hcallers hv

/-- **A return of null.** -/
theorem Standing.returnNull (h : Standing r g t s ip temps m)
    (hcode : g.closure.body.code.Placed ip (.returnNull :: rest)) (houter : t.isGlobal = false) :
    Leads m 1 (Returned r g .null s.world) (Halts r fault) := by
  obtain ⟨hbelow, hcallers⟩ := h.function_frame houter
  refine h.leads hcode fun locals m' hready => ?_
  rw [Exec.execute]
  exact hready.returnWith hbelow hcallers .null

end

end StackScript
