import StackScript.Proofs.Simulation.Calls
import StackScript.Proofs.Simulation.Closures

/-!
# Compiled code does what the program means

The main induction: the code of a phrase, as `Writes` describes it, does what
the evaluator does with the phrase. There is one case for each rule of `Writes`,
and each is put together from what single instructions do and from the cases of
the parts. Around it is an induction on the calls that can still be nested: what
is said of calls rests on what has been said of bodies where one call fewer can
be nested (`bodySim`).
-/

namespace StackScript

open Instruction (encodeAll sizeAll)

namespace Course

variable (r : Course) (n : Nat)

/-- Rounds of two stretches of code add up. -/
theorem rounds_append (is js : List Instruction) :
    r.rounds n (is ++ js) = r.rounds n is + r.rounds n js := by
  rw [rounds, Instruction.sizeAll_append, Nat.add_mul]
  rfl

theorem rounds_cons (i : Instruction) (is : List Instruction) :
    r.rounds n (i :: is) = r.rounds n [i] + r.rounds n is := r.rounds_append n [i] is

/-- An instruction is allowed as many rounds as a call takes with all that it
calls, since it may be a call. -/
theorem weight_le_rounds (i : Instruction) : weight r.longest n ≤ r.rounds n [i] :=
  Nat.le_mul_of_pos_left _ (Nat.lt_of_lt_of_le i.size_pos (Nat.le_add_right _ _))

/-- An instruction has a round. -/
theorem one_le_rounds (i : Instruction) : 1 ≤ r.rounds n [i] :=
  Nat.le_trans (weight_pos _ _) (r.weight_le_rounds n i)

/-- There is at least one round for each instruction. -/
theorem length_le_rounds (is : List Instruction) : is.length ≤ r.rounds n is := by
  induction is with
  | nil => exact Nat.zero_le _
  | cons i is ih =>
    rw [rounds_cons, List.length_cons, Nat.add_comm]
    exact Nat.add_le_add (r.one_le_rounds n i) ih

end Course

/-! ## Phrases -/

/-- So many values that the evaluator has computed one after the other are on
the stack. -/
def PushedAll (r : Course) (g : Stage) (t : SymbolTable) (ip : Nat) (temps : List Value)
    (count : Nat) (ws : List (Value Lambda)) (s : EvalState) (m : Machine) : Prop :=
  ∃ vs, vs.length = count ∧ List.Forall₂ (Related r.pool) vs ws ∧
    Standing r g t s ip (temps ++ vs) m

/-- **What it means that the code of a phrase is simulated**: where the machine
is to come to. -/
def Phrase.Simulated (r : Course) (g : Stage) (depth : Nat) (c' : Setting) (ip : Nat)
    (temps : List Value) (s : EvalState) (m : Machine) (cost : Nat) : Phrase → Prop
  | .expr e => Sim r g (Eval.expr (Eval.callAt depth) e s) m cost (Pushed r g c'.symbols ip temps)
  | .exprs es =>
    Sim r g (Eval.exprs (Eval.callAt depth) es s) m cost
      (PushedAll r g c'.symbols ip temps es.length)
  | .pairs entries =>
    Sim r g (Eval.pairs (Eval.callAt depth) entries s) m cost
      (PushedAll r g c'.symbols ip temps (2 * entries.length))
  | .branch block =>
    Sim r g (Eval.block (Eval.callAt depth) block s) m cost (Pushed r g c'.symbols ip temps)
  | .body block => c'.symbols.isGlobal = false →
    Sim r g (Eval.block (Eval.callAt depth) block s) m cost fun w s' => Returned r g w s'.world
  | .stmt x =>
    Sim r g (Eval.stmt (Eval.callAt depth) x s) m cost
      fun _ s' => Standing r g c'.symbols s' ip temps
  | .stmts _ => True

section

variable {r : Course} {g : Stage} {c c' : Setting} {s : EvalState} {ip depth : Nat}
  {temps : List Value} {m : Machine} {i : Instruction} {rest : List Instruction}

/-- **A literal.** -/
theorem Standing.literal {index : UInt16} {v : Value} {w : Value Lambda}
    (h : Standing r g c.symbols s ip temps m) (hintern : c.intern v = some (index, c'))
    (hfits : Fits r g c') (hcode : g.closure.body.code.Placed ip (.constant index :: rest))
    (hv : Related r.pool v w) :
    Sim r g (.ok w s) m 1 (Pushed r g c'.symbols (ip + 3) temps) := by
  have hpool := getElem?_of_isPrefixOf hfits.constants (Setting.getElem?_intern hintern)
  have hsymbols : c'.symbols = c.symbols := by
    unfold Setting.intern at hintern
    split at hintern <;> split at hintern <;> cases hintern <;> rfl
  rw [hsymbols]
  refine h.push hcode fun locals m' hready => ⟨v, hv, ?_⟩
  rw [Exec.execute]
  rw [← hready.world.constants] at hpool
  exact Exec.bind_of_ok _ (Exec.constant_of_some .constant hpool)

theorem execute_unaryInstruction (op : UnaryOp) (frame : Frame) :
    Exec.execute frame (Compile.unaryInstruction op) = Exec.unary op := by
  cases op <;> rfl

/-- All binary operators but `<` have an instruction of their own. That one is
compiled as `>` with its operands exchanged. -/
theorem execute_binaryInstruction {op : BinaryOp} (hop : op ≠ .less) (frame : Frame) :
    Exec.execute frame (Compile.binaryInstruction op) = Exec.binary op := by
  cases op <;> first | rfl | contradiction

theorem Eval.name_of_lookup {name : String} {w : Value Lambda} (h : s.lookup name = some w) :
    Eval.name name s = .ok w s := by
  have hget : (get : Eval EvalState) s = .ok s s := rfl
  rw [Eval.name]
  show EStateM.bind get _ s = _
  rw [EStateM.bind, hget]
  dsimp only
  rw [h]
  rfl

/-- They are evaluated from left to right, as is everything but the operands of
`<`. -/
theorem Eval.expr_binary {op : BinaryOp} (hop : op ≠ .less) (call) (left right : Expr)
    (span : Span) :
    Eval.expr call (.binary op left right span) = (do
      let x ← Eval.expr call left
      let y ← Eval.expr call right
      Eval.ofExcept (Value.binary op x y)) := by
  cases op <;> first | contradiction | rw [Eval.expr]; exact nofun

/-- A branch that is not taken binds its names all the same. -/
theorem Eval.expr_cond (call) (test : Expr) (yes : Block) (no : Option Block) (span : Span) :
    Eval.expr call (.cond test yes no span) = (do
      let v ← Eval.expr call test
      if v.truthy then do
        let w ← Eval.block call yes.body
        modify fun s => s.rename fun ns => ns.skipBlock (otherwise no)
        pure w
      else do
        modify fun s => s.rename fun ns => ns.skipBlock yes.body
        Eval.block call (otherwise no)) := by
  obtain ⟨body, span'⟩ := yes
  rw [Eval.expr, Eval.branch]
  cases no with
  | none =>
    rw [Eval.other, otherwise, Eval.block]
    rfl
  | some no =>
    obtain ⟨body', span''⟩ := no
    rw [Eval.other, Eval.branch]
    rfl

/-- A block that does not consist of one expression begins with a statement. -/
theorem Eval.block_cons (call) {x : Stmt} {rest : List Stmt} (h : rest = [] → x.isExpr = false) :
    Eval.block call (x :: rest) = (do
      Eval.stmt call x
      Eval.block call rest) := by
  cases rest with
  | nil =>
    cases x with
    | expr => cases h rfl
    | bind | ret => rfl
  | cons => rw [Eval.block]; exact nofun

/-- An evaluation comes after instructions that the evaluator knows nothing
of. -/
theorem Sim.first {result : EStateM.Result Signal EvalState (Value Lambda)} {cost cost₁ cost₂ : Nat}
    {P : Machine → Prop} {Q : Value Lambda → EvalState → Machine → Prop}
    (h : Leads m cost₁ P (Halts r none)) (hnext : ∀ m', P m' → Sim r g result m' cost₂ Q)
    (hcost : cost₁ + cost₂ ≤ cost) : Sim r g result m cost Q :=
  ((h.mono (Nat.le_refl _) (fun _ => id) fun _ _ h => h.of_none _).bind hnext).mono hcost
    (fun _ => id) fun _ _ => id

/-- An evaluation comes before instructions that the evaluator knows nothing
of. -/
theorem Sim.last {result : EStateM.Result Signal EvalState (Value Lambda)} {cost cost₁ cost₂ : Nat}
    {Q R : Value Lambda → EvalState → Machine → Prop} (h : Sim r g result m cost₁ Q)
    (hnext : ∀ w s' m', Q w s' m' → Leads m' cost₂ (R w s') (Halts r none))
    (hcost : cost₁ + cost₂ ≤ cost) : Sim r g result m cost R := by
  cases result with
  | ok w s' => exact (Leads.bind h (hnext w s')).mono hcost (fun _ => id) fun _ _ => id
  | error signal s' =>
    refine Leads.mono h (Nat.le_trans (Nat.le_add_right _ _) hcost) (fun m' ht => ?_) fun _ _ => id
    cases signal <;> exact ht

/-- A phrase that is skipped changes the names alone. -/
theorem Standing.skip {start : Nat} {p : Phrase} {is : List Instruction}
    (h : Standing r g c.symbols s ip temps m) (hw : Writes c start p is c') :
    Standing r g c'.symbols (s.rename p.skip) ip temps m := by
  have hext := hw.extends h.coherent
  exact h.retable hext.coherent hext.outer (by rw [h.names, hext.names])

/-- Two operands are evaluated, then an instruction follows. -/
theorem Sim.operands {x y : Eval (Value Lambda)}
    {f : Value Lambda → Value Lambda → Eval (Value Lambda)} {t₁ t₂ : SymbolTable}
    {ip₁ ip₂ cost₁ cost₂ cost₃ : Nat} {Q : Value Lambda → EvalState → Machine → Prop}
    (hx : Sim r g (x s) m cost₁ (Pushed r g t₁ ip₁ temps))
    (hy : ∀ s₁ m₁ temps₁, Standing r g t₁ s₁ ip₁ temps₁ m₁ →
      Sim r g (y s₁) m₁ cost₂ (Pushed r g t₂ ip₂ temps₁))
    (hf : ∀ {v₁ v₂ w₁ w₂ s₂ m₂}, Related r.pool v₁ w₁ → Related r.pool v₂ w₂ →
      Standing r g t₂ s₂ ip₂ (temps ++ [v₁] ++ [v₂]) m₂ → Sim r g (f w₁ w₂ s₂) m₂ 1 Q)
    (hcost : 1 ≤ cost₃) :
    Sim r g ((do let w₁ ← x; let w₂ ← y; f w₁ w₂) s) m (cost₁ + (cost₂ + cost₃)) Q := by
  refine hx.bind ?_ (Nat.le_refl _)
  rintro w₁ s₁ m₁ ⟨v₁, hv₁, h₁⟩
  refine (hy s₁ m₁ _ h₁).bind ?_ (Nat.add_le_add_left hcost _)
  rintro w₂ s₂ m₂ ⟨v₂, hv₂, h₂⟩
  exact hf hv₁ hv₂ h₂

theorem Stmt.isExpr_of_isBind {x : Stmt} (h : x.isBind = true) : x.isExpr = false := by
  cases x with
  | bind => rfl
  | expr | ret => cases h

/-- **The code of a phrase does what the evaluator does.** -/
theorem Writes.simulated {start : Nat} {p : Phrase} {is : List Instruction} {n : Nat}
    (hw : Writes c start p is c') (hdepth : n ≤ depth)
    (hbodies : ∀ k d, n = k + 1 → k ≤ d → BodySim r k d) (hleft : g.left = n) (hfits : Fits r g c')
    (hcode : g.closure.body.code.Placed start is) (h : Standing r g c.symbols s start temps m) :
    p.Simulated r g depth c' (start + sizeAll is) temps s m (r.rounds n is) := by
  induction hw generalizing s temps m with
  | @ident c start name span symbol symbols i hresolve hload =>
    obtain ⟨hcoherent, hinner, houter, hfound⟩ := h.coherent.resolve hresolve
    have hstanding := h.regrow hcoherent hinner houter
    obtain ⟨w, hlookup, hsim⟩ := hstanding.load_found (c := ⟨symbols, _⟩) hfits hfound hload hcode
    have heval : Eval.expr (Eval.callAt depth) (.ident name span) s = .ok w s := by
      rw [Eval.expr]
      exact Eval.name_of_lookup hlookup
    rw [Phrase.Simulated, heval]
    exact hsim.mono (r.one_le_rounds n i) fun _ _ _ => id
  | number _ hintern =>
    rw [Phrase.Simulated, Eval.expr]
    exact (h.literal hintern hfits hcode (.number _)).mono (r.one_le_rounds n _) fun _ _ _ => id
  | @boolean c start b span =>
    rw [Phrase.Simulated, Eval.expr]
    refine Sim.mono (h.push hcode fun locals m' _ => ⟨.boolean b, .boolean b, ?_⟩)
      (r.one_le_rounds n _) fun _ _ _ => id
    cases b <;> rfl
  | string hintern =>
    rw [Phrase.Simulated, Eval.expr]
    exact (h.literal hintern hfits hcode (.string _)).mono (r.one_le_rounds n _) fun _ _ _ => id
  | unary _ ih =>
    rw [Phrase.Simulated, Eval.expr, r.rounds_append, Instruction.add_sizeAll_append]
    refine (ih hfits hcode.left h).bind ?_ (Nat.add_le_add_left (r.one_le_rounds n _) _)
    rintro w s₁ m₁ ⟨v, hv, h₁⟩
    exact h₁.unary hcode.right (execute_unaryInstruction _) hv
  | less hright hleft ihright ihleft =>
    have hfits₁ := hfits.of_extends (hleft.extends (hright.extends h.coherent).coherent)
    rw [Phrase.Simulated, Eval.expr, r.rounds_append, r.rounds_append,
      Instruction.add_sizeAll_append, Instruction.add_sizeAll_append]
    refine (ihright hfits₁ hcode.left h).operands (fun _ _ _ h₁ => ihleft hfits hcode.right.left h₁)
      (fun hv₁ hv₂ h₂ => ?_) (r.one_le_rounds n _)
    -- The operands stand the other way round, and so does the operator.
    have hexecute : ∀ frame, Exec.execute frame .greaterThan = Exec.binary .greater := fun _ => rfl
    have hsim := h₂.binary hcode.right.right hexecute hv₁ hv₂
    exact hsim
  | binary hop hleft hright ihleft ihright =>
    have hfits₁ := hfits.of_extends (hright.extends (hleft.extends h.coherent).coherent)
    rw [Phrase.Simulated, Eval.expr_binary hop, r.rounds_append, r.rounds_append,
      Instruction.add_sizeAll_append, Instruction.add_sizeAll_append]
    refine (ihleft hfits₁ hcode.left h).operands (fun _ _ _ h₁ => ihright hfits hcode.right.left h₁)
      (fun hv₁ hv₂ h₂ => ?_) (r.one_le_rounds n _)
    exact h₂.binary hcode.right.right (execute_binaryInstruction hop) hv₁ hv₂
  | @cond c c₁ c₂ c₃ start test yes no span ts ys ns toNo toEnd htest hyes hno htoNo hlt htoEnd hlt'
      ihtest ihyes ihno =>
    have hcoherent₁ := (htest.extends h.coherent).coherent
    have hfits₂ := hfits.of_extends (hno.extends (hyes.extends hcoherent₁).coherent)
    have hcodeYes := hcode.right.tail
    have hcodeNo := hcodeYes.right.tail
    -- The second jump leads to the end of the whole phrase.
    have hend : start + sizeAll (ts ++ .jumpNotTruthy (UInt16.ofNat toNo) ::
        (ys ++ .jump (UInt16.ofNat toEnd) :: ns)) = toEnd := by
      simp only [Instruction.sizeAll_append, Instruction.sizeAll_cons, Instruction.size_jump,
        Instruction.size_jumpNotTruthy]
      omega
    rw [Phrase.Simulated, Eval.expr_cond, hend, r.rounds_append, r.rounds_cons n _ (ys ++ _),
      r.rounds_append, r.rounds_cons n _ ns]
    refine (ihtest (hfits₂.of_extends (hyes.extends hcoherent₁)) hcode.left h).bind ?_
      (Nat.le_refl _)
    rintro w s₁ m₁ ⟨v, hv, h₁⟩
    have hone := r.one_le_rounds n (.jumpNotTruthy (UInt16.ofNat toNo))
    have hone' := r.one_le_rounds n (.jump (UInt16.ofNat toEnd))
    -- Only one branch is run, but the rounds of both are allowed.
    have hcost : 1 + (r.rounds n ys + 1 + r.rounds n ns) ≤
        r.rounds n [.jumpNotTruthy (UInt16.ofNat toNo)] +
          (r.rounds n ys + (r.rounds n [.jump (UInt16.ofNat toEnd)] + r.rounds n ns)) := by omega
    refine Sim.first (h₁.jumpNotTruthy hlt hcode.right) (fun m₂ h₂ => ?_) hcost
    rw [(Related.structural r.pool).truthy_eq hv] at h₂
    cases hw : w.truthy with
    | true =>
      rw [hw] at h₂
      refine (ihyes hfits₂ hcodeYes.left h₂).bind ?_ (Nat.le_of_eq (Nat.add_assoc ..).symm)
      rintro w' s₃ m₃ ⟨v', hv', h₃⟩
      refine Leads.mono (h₃.jump hlt' hcodeYes.right) (Nat.le_add_right _ _) ?_ fun _ _ => id
      -- The evaluator has skipped the names of the other branch.
      exact fun m₄ h₄ => ⟨v', hv', h₄.skip hno⟩
    | false =>
      rw [hw] at h₂
      have hsim := ihno hfits (htoNo ▸ hcodeNo) (h₂.skip hyes)
      rw [← htoEnd] at hsim
      exact Sim.mono hsim (Nat.le_add_left _ _) fun _ _ _ => id
  | @function c c' start name params block span is loads symbols hparams hbody hleave hcaptures
      hloads hconstants =>
    obtain ⟨body, span'⟩ := block
    rw [Phrase.Simulated, Eval.expr, r.rounds_append, Instruction.add_sizeAll_append]
    refine Leads.mono (h.function hbody hleave hcaptures hloads hconstants hfits hcode)
      (Nat.add_le_add (r.length_le_rounds n _) (r.one_le_rounds n _)) (fun _ => id) fun _ _ => id
  | call hcallee hargs hlt ihcallee ihargs =>
    have hfits₁ := hfits.of_extends (hargs.extends (hcallee.extends h.coherent).coherent)
    rw [Phrase.Simulated, Eval.expr, r.rounds_append, r.rounds_append,
      Instruction.add_sizeAll_append, Instruction.add_sizeAll_append]
    refine (ihcallee hfits₁ hcode.left h).bind ?_ (Nat.le_refl _)
    rintro w s₁ m₁ ⟨v, hv, h₁⟩
    refine (ihargs hfits hcode.right.left h₁).bind ?_
      (Nat.add_le_add_left (r.weight_le_rounds n _) _)
    rintro ws s₂ m₂ ⟨vs, hlen, hvs, h₂⟩
    have hcode₂ := hcode.right.right
    rw [← hlen] at hlt hcode₂
    rw [List.append_assoc, List.singleton_append] at h₂
    subst hleft
    -- What the body does is the outer induction: one call fewer can be nested
    -- in it.
    exact h₂.call hcode₂ hlt hv hvs hdepth hbodies
  | array hitems hlt ih =>
    rw [Phrase.Simulated, Eval.expr, r.rounds_append, Instruction.add_sizeAll_append]
    refine (ih hfits hcode.left h).bind ?_ (Nat.add_le_add_left (r.one_le_rounds n _) _)
    rintro ws s₁ m₁ ⟨vs, hlen, hvs, h₁⟩
    have hcode₁ := hcode.right
    rw [← hlen] at hlt hcode₁
    exact h₁.makeArray hlt hcode₁ hvs
  | index hcontainer hkey ihcontainer ihkey =>
    have hfits₁ := hfits.of_extends (hkey.extends (hcontainer.extends h.coherent).coherent)
    rw [Phrase.Simulated, Eval.expr, r.rounds_append, r.rounds_append,
      Instruction.add_sizeAll_append, Instruction.add_sizeAll_append]
    refine (ihcontainer hfits₁ hcode.left h).operands
      (fun _ _ _ h₁ => ihkey hfits hcode.right.left h₁)
      (fun hv₁ hv₂ h₂ => ?_) (r.one_le_rounds n _)
    exact h₂.index hcode.right.right hv₁ hv₂
  | map hentries hlt ih =>
    rw [Phrase.Simulated, Eval.expr, r.rounds_append, Instruction.add_sizeAll_append]
    refine (ih hfits hcode.left h).bind ?_ (Nat.add_le_add_left (r.one_le_rounds n _) _)
    rintro ws s₁ m₁ ⟨vs, hlen, hvs, h₁⟩
    have hcode₁ := hcode.right
    rw [← hlen] at hlt hcode₁
    exact h₁.makeMap hlt hcode₁ hvs
  | exprsNil =>
    rw [Phrase.Simulated, Eval.exprs]
    exact Leads.here ⟨[], rfl, .nil, by rw [List.append_nil]; exact h⟩
  | exprsCons he hes ihe ihes =>
    have hfits₁ := hfits.of_extends (hes.extends (he.extends h.coherent).coherent)
    rw [Phrase.Simulated, Eval.exprs, r.rounds_append, Instruction.add_sizeAll_append]
    refine (ihe hfits₁ hcode.left h).bind ?_ (Nat.le_refl _)
    rintro w s₁ m₁ ⟨v, hv, h₁⟩
    refine (ihes hfits hcode.right h₁).bind ?_ (Nat.le_of_eq (Nat.add_zero _))
    rintro ws s₂ m₂ ⟨vs, hlen, hvs, h₂⟩
    refine Leads.here ⟨v :: vs, congrArg (· + 1) hlen, .cons hv hvs, ?_⟩
    rw [List.append_assoc, List.singleton_append] at h₂
    exact h₂
  | pairsNil =>
    rw [Phrase.Simulated, Eval.pairs]
    exact Leads.here ⟨[], rfl, .nil, by rw [List.append_nil]; exact h⟩
  | pairsCons hkey hvalue hrest ihkey ihvalue ihrest =>
    have hcoherent₁ := (hkey.extends h.coherent).coherent
    have hcoherent₂ := (hvalue.extends hcoherent₁).coherent
    have hfits₂ := hfits.of_extends (hrest.extends hcoherent₂)
    have hfits₁ := hfits₂.of_extends (hvalue.extends hcoherent₁)
    rw [Phrase.Simulated, Eval.pairs, r.rounds_append, r.rounds_append,
      Instruction.add_sizeAll_append, Instruction.add_sizeAll_append]
    refine (ihkey hfits₁ hcode.left h).bind ?_ (Nat.le_refl _)
    rintro w s₁ m₁ ⟨v, hv, h₁⟩
    refine (ihvalue hfits₂ hcode.right.left h₁).bind ?_ (Nat.le_refl _)
    rintro w' s₂ m₂ ⟨v', hv', h₂⟩
    refine (ihrest hfits hcode.right.right h₂).bind ?_ (Nat.le_of_eq (Nat.add_zero _))
    rintro ws s₃ m₃ ⟨vs, hlen, hvs, h₃⟩
    refine Leads.here ⟨v :: v' :: vs, congrArg (· + 2) hlen, .cons hv (.cons hv' hvs), ?_⟩
    rw [List.append_assoc, List.append_assoc, List.singleton_append, List.singleton_append] at h₃
    exact h₃
  | branchNil =>
    rw [Phrase.Simulated, Eval.block]
    exact Sim.mono (h.push hcode fun locals m' _ => ⟨.null, .null, rfl⟩) (r.one_le_rounds n _)
      fun _ _ _ => id
  | branchExpr _ ih =>
    rw [Phrase.Simulated, Eval.block]
    exact ih hfits hcode h
  | branchCons hlast hx hrest ihx ihrest =>
    have hfits₁ := hfits.of_extends (hrest.extends (hx.extends h.coherent).coherent)
    rw [Phrase.Simulated, Eval.block_cons _ hlast, r.rounds_append, Instruction.add_sizeAll_append]
    exact (ihx hfits₁ hcode.left h).bind (fun _ s₁ m₁ h₁ => ihrest hfits hcode.right h₁)
      (Nat.le_refl _)
  | bodyNil =>
    intro hglobal
    rw [Eval.block]
    exact Leads.mono (h.returnNull hcode hglobal) (r.one_le_rounds n _) (fun _ => id) fun _ _ => id
  | bodyExpr _ ih =>
    intro hglobal
    rw [Eval.block, r.rounds_append]
    refine Sim.last (ih hfits hcode.left h) ?_ (Nat.add_le_add_left (r.one_le_rounds n _) _)
    rintro w s₁ m₁ ⟨v, hv, h₁⟩
    exact h₁.returnValue hcode.right hglobal hv
  | bodyRet _ _ ih =>
    intro hglobal
    rw [Eval.block_cons _ (fun _ => rfl), Eval.stmt, r.rounds_append, bind_assoc]
    refine (ih hfits hcode.left h).bind ?_ (Nat.add_le_add_left (r.one_le_rounds n _) _)
    rintro w s₁ m₁ ⟨v, hv, h₁⟩
    exact h₁.returnValue hcode.right hglobal hv
  | bodyCons hlast hx hrest ihx ihrest =>
    intro hglobal
    have hfits₁ := hfits.of_extends (hrest.extends (hx.extends h.coherent).coherent)
    have hlast' := fun hnil => Stmt.isExpr_of_isBind (hlast hnil)
    rw [Eval.block_cons _ hlast', r.rounds_append]
    exact (ihx hfits₁ hcode.left h).bind (fun _ s₁ m₁ h₁ => ihrest hfits hcode.right h₁ hglobal)
      (Nat.le_refl _)
  | stmtExpr _ ih =>
    rw [Phrase.Simulated, Eval.stmt, r.rounds_append, Instruction.add_sizeAll_append]
    refine (ih hfits hcode.left h).bind ?_ (Nat.add_le_add_left (r.one_le_rounds n _) _)
    rintro w s₁ m₁ ⟨v, hv, h₁⟩
    exact Sim.mono (h₁.pop hcode.right) (Nat.le_refl _) fun _ _ _ h₂ => h₂.1
  | stmtBind hvalue hstore ih =>
    have hcoherent := (hvalue.extends h.coherent).coherent
    rw [Phrase.Simulated, Eval.stmt, r.rounds_append, Instruction.add_sizeAll_append]
    refine (ih (hfits.of_extends (.define hcoherent _)) hcode.left h).bind ?_
      (Nat.add_le_add_left (r.one_le_rounds n _) _)
    rintro w s₁ m₁ ⟨v, hv, h₁⟩
    exact h₁.store hfits hstore hcode.right hv
  | stmtRet hglobal hvalue ih =>
    have hglobal' := (hvalue.extends h.coherent).isGlobal.trans hglobal
    rw [Phrase.Simulated, Eval.stmt, r.rounds_append]
    refine (ih hfits hcode.left h).bind ?_ (Nat.add_le_add_left (r.one_le_rounds n _) _)
    rintro w s₁ m₁ ⟨v, hv, h₁⟩
    exact h₁.returnValue hcode.right hglobal' hv
  | stmtsNil => trivial
  | stmtsCons => trivial

/-- **Bodies are simulated**, however many calls can be nested. -/
theorem bodySim (r : Course) {n depth : Nat} (hdepth : n ≤ depth) : BodySim r n depth := by
  induction n generalizing depth with
  | zero =>
    intro g c c' start block is s temps m hleft hglobal hw hfits hcode h
    have hglobal' := (hw.extends h.coherent).isGlobal.trans hglobal
    exact hw.simulated hdepth (fun _ _ h => nomatch h) hleft hfits hcode h hglobal'
  | succ n ih =>
    intro g c c' start block is s temps m hleft hglobal hw hfits hcode h
    have hglobal' := (hw.extends h.coherent).isGlobal.trans hglobal
    refine hw.simulated hdepth (fun k d hk hkd => ?_) hleft hfits hcode h hglobal'
    exact Nat.succ_inj.1 hk ▸ ih (Nat.succ_inj.1 hk ▸ hkd)

end

end StackScript
