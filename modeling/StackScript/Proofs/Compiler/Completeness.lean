import StackScript.Proofs.Compiler.Adequacy

/-!
# What has a layout compiles

The converse of adequacy: a phrase that has a layout is compiled without a
fault, and what is written is the layout. So `Writes` says of a program not only
what its code is when there is any, but also that there is some: whether it
compiles depends on nothing but the names, the constants and the offset it is
written at.
-/

namespace StackScript

open Instruction (encodeAll sizeAll)

/-- **A compiler stands at a setting and an offset**: these are its names and
constants, and what it writes next begins there. -/
structure Compiler.Stands (c : Compiler) (s : Setting) (start : Nat) : Prop where
  /-- The names and constants. -/
  setting : c.setting = s
  /-- The offset. -/
  size : c.fragment.code.size = start
  /-- There is a fragment for each scope. -/
  level : c.Level

/-- After the code of a phrase the compiler stands behind it. -/
theorem Compiler.Stands.wrote {c c' : Compiler} {s s' : Setting} {start : Nat} {p : Phrase}
    {is : List Instruction} (hc : c.Stands s start) (hw : Writes s start p is s')
    (hsetting : c'.setting = s') (hwrote : c.Wrote is c') : c'.Stands s' (start + sizeAll is) where
  setting := hsetting
  size := by rw [hwrote.size, hc.size]
  level := by
    obtain rfl := hc.setting
    obtain rfl := hsetting
    exact hc.level.of_wrote hwrote hw

namespace Compile

/-- **A computation lays out instructions** and leads to a setting. -/
def Lays (x : Compile Unit) (c : Compiler) (is : List Instruction) (s : Setting) : Prop :=
  ∃ c', x c = .ok () c' ∧ c'.setting = s ∧ c.Wrote is c'

section

variable {x y : Compile Unit} {c : Compiler} {s s₁ s₂ : Setting} {start : Nat} {p : Phrase}
  {is js : List Instruction}

/-- **What has been appended by one step is followed by what the next appends.**
The compiler stands at the right offset for it. -/
theorem Lays.bind (hc : c.Stands s start) (hw : Writes s start p is s₁) (hx : Lays x c is s₁)
    (hy : ∀ c₁, c₁.Stands s₁ (start + sizeAll is) → Lays y c₁ js s₂) :
    Lays (do x; y) c (is ++ js) s₂ := by
  obtain ⟨c₁, hrun₁, hsetting, hwrote₁⟩ := hx
  obtain ⟨c₂, hrun₂, hsetting₂, hwrote₂⟩ := hy c₁ (hc.wrote hw hsetting hwrote₁)
  exact ⟨c₂, (bind_of_ok _ hrun₁).trans hrun₂, hsetting₂, hwrote₁.trans hwrote₂⟩

/-- An instruction at the end, whose operands may have to be checked. -/
theorem Lays.step {i : Instruction} (hx : Lays x c is s)
    (hy : ∀ c₁, y c₁ = .ok () (c₁.emit i)) : Lays (do x; y) c (is ++ [i]) s := by
  obtain ⟨c₁, hrun, hsetting, hwrote⟩ := hx
  exact ⟨c₁.emit i, (bind_of_ok _ hrun).trans (hy c₁), hsetting, hwrote.emit i⟩

/-- A number that fits into two bytes becomes an operand. This and the next
lemma are where the bounds on counts are used. -/
theorem emit_wide_of_lt {n : Nat} (f : UInt16 → Instruction) (fault : CompileFault) (span : Span)
    (h : n < 65536) (c : Compiler) :
    (do emit (f (← wide n fault span))) c = .ok () (c.emit (f (UInt16.ofNat n))) :=
  bind_of_ok _ (wide_of_lt fault span h)

/-- So does a number that fits into one byte. -/
theorem emit_narrow_of_lt {n : Nat} (f : UInt8 → Instruction) (fault : CompileFault) (span : Span)
    (h : n < 256) (c : Compiler) :
    (do emit (f (← narrow n fault span))) c = .ok () (c.emit (f (UInt8.ofNat n))) :=
  bind_of_ok _ (narrow_of_lt fault span h)

/-- A literal joins the constants, and an instruction pushes it. -/
theorem lays_literal {c : Compiler} {v : Value} {k : UInt16} {s : Setting} (span : Span)
    (h : c.setting.intern v = some (k, s)) :
    Lays (do emit (.constant (← literal v span))) c [.constant k] s := by
  refine ⟨_, bind_of_ok _ (literal_of_intern span h), ?_, ?_⟩
  · show (⟨c.setting.symbols, s.constants⟩ : Setting) = s
    rw [← Setting.symbols_of_intern h]
  · have hwrote : c.Wrote [] { c with constants := s.constants } := Compiler.wrote_nil rfl rfl
    exact hwrote.emit (.constant k)

/-- A conditional, put together from what its parts lay out. -/
theorem lays_cond {c : Compiler} {test : Expr} {yes : Block} {no : Option Block} {span : Span}
    {c₁ c₂ c₃ : Compiler} {ts ys ns : List Instruction} {toNo toEnd : Nat}
    (htest : expr test c = .ok () c₁) (hwrote₁ : c.Wrote ts c₁)
    (hyes : branch yes (c₁.emit (.jumpNotTruthy hole)) = .ok () c₂)
    (hwrote₂ : (c₁.emit (.jumpNotTruthy hole)).Wrote ys c₂)
    (hno : branch (.mk (otherwise no) span) (between c₁ c₂) = .ok () c₃)
    (hwrote₃ : (between c₁ c₂).Wrote ns c₃)
    (htoNo : toNo = c.fragment.code.size + sizeAll ts + 3 + sizeAll ys + 3) (hnear : toNo < 65536)
    (htoEnd : toEnd = toNo + sizeAll ns) (hfar : toEnd < 65536) :
    Lays (expr (.cond test yes no span)) c
      (ts ++ .jumpNotTruthy (UInt16.ofNat toNo) :: (ys ++ .jump (UInt16.ofNat toEnd) :: ns))
      c₃.setting := by
  have hsize := size_emit_jump hwrote₁ hwrote₂ htoNo
  have hsize₃ : c₃.fragment.code.size = toEnd := by
    rw [hwrote₃.size, size_between hwrote₁ hwrote₂ htoNo, htoEnd]
  refine ⟨filled c₃ (Code.labelAt c₂.fragment.code.size), ?_, rfl,
    wrote_cond hwrote₁ hwrote₂ hwrote₃ htoNo htoEnd⟩
  have hbind₁ : Compile.bind (Code.labelAt c₁.fragment.code.size) span (c₂.emit (.jump hole)) =
      .ok () (between c₁ c₂) := by
    refine bind_of_lt span ?_ (hsize ▸ hnear)
    show c₁.fragment.code.size + 1 + 2 ≤ _
    rw [hsize, htoNo, hwrote₁.size]
    omega
  have hbind₂ : Compile.bind (Code.labelAt c₂.fragment.code.size) span c₃ =
      .ok () (filled c₃ (Code.labelAt c₂.fragment.code.size)) := by
    refine bind_of_lt span ?_ (hsize₃ ▸ hfar)
    have hjump : (c₂.emit (.jump hole)).fragment.code.size = c₂.fragment.code.size + 3 :=
      (Compiler.wrote_emit c₂ (.jump hole)).size
    show c₂.fragment.code.size + 1 + 2 ≤ _
    omega
  have hjump₁ : emitJumpNotTruthy c₁ =
      .ok (Code.labelAt c₁.fragment.code.size) (c₁.emit (.jumpNotTruthy hole)) := rfl
  have hjump₂ : emitJump c₂ = .ok (Code.labelAt c₂.fragment.code.size) (c₂.emit (.jump hole)) := rfl
  rw [expr_cond, bind_of_ok _ htest, bind_of_ok _ hjump₁, bind_of_ok _ hyes, bind_of_ok _ hjump₂,
    bind_of_ok _ hbind₁, bind_of_ok _ hno, hbind₂]

end

/-- A function that has been opened begins at offset zero, with the names of its
own. -/
theorem stands_opened {c : Compiler} (hl : c.Level) (name : Option String) (params : List Ident) :
    (opened c name params).Stands
      { c.setting with symbols := c.symbols.enterFunction name params } 0 where
  setting := rfl
  size := rfl
  level := level_opened hl name params

/-- A function literal whose body is ended is closed and built. -/
theorem lays_buildClosure {c c' : Compiler} {name : Option String} {params : List Ident}
    {symbols : SymbolTable} {loads : List Instruction} (span : Span)
    (houter : c'.outer = (opened c name params).outer)
    (hleave : c'.symbols.leave? = some symbols) (hcaptures : c'.symbols.inner.captures.size < 256)
    (hloads : Symbol.loads? c'.symbols.inner.captures.toList = some loads)
    (hconstants : c'.constants.size < 65536) :
    ∃ c'', buildClosure params.length span c' = .ok () c'' ∧
      c''.setting = ⟨symbols, c'.constants.push (.routine ⟨c'.constants.size, c'.fragment.code,
        c'.symbols.inner.definitions, params.length⟩)⟩ ∧
      c.Wrote (loads ++ [.makeClosure (UInt16.ofNat c'.constants.size)
        (UInt8.ofNat c'.symbols.inner.captures.size)]) c'' := by
  have hclose := leaveFunction_eq_ok span hleave houter
  have hwrote := (Compiler.wrote_emitAll c loads).emit
    (.makeClosure (UInt16.ofNat c'.constants.size) (UInt8.ofNat c'.symbols.inner.captures.size))
  unfold buildClosure
  rw [bind_of_ok _ hclose]
  refine ⟨_, (bind_of_ok _ (narrow_of_lt _ span hcaptures)).trans
    ((bind_of_ok _ (loadAll_of_loads? span hloads)).trans
      (bind_of_ok _ (addRoutine_of_lt _ _ _ span hconstants))), rfl, ?_⟩
  exact ⟨hwrote.outer, hwrote.code⟩

/-- A return is compiled where a function is open. -/
theorem lays_ret {c : Compiler} {e : Expr} {is : List Instruction} {s : Setting} (span : Span)
    (hl : c.Level) (hdeep : c.symbols.isGlobal = false) (he : Lays (expr e) c is s) :
    ∃ c₁, statement (.ret e span) c = .ok () (c₁.emit .returnValue) ∧ c₁.setting = s ∧
      c.Wrote is c₁ := by
  obtain ⟨c₁, hrun, hsetting, hwrote⟩ := he
  refine ⟨c₁, ?_, hsetting, hwrote⟩
  have hopen : c.outer.isEmpty = false := by
    rw [← hdeep, SymbolTable.isGlobal, Bool.eq_iff_iff, List.isEmpty_iff_length_eq_zero,
      List.isEmpty_iff_length_eq_zero, hl]
  rw [statement]
  show (do
    if c.outer.isEmpty then fail .returnOutsideFunction span
    expr e
    emit .returnValue) c = _
  rw [hopen]
  exact bind_of_ok _ hrun

end Compile

open Compile

/-- **A phrase is compiled to instructions**, from where the compiler is. -/
def Phrase.Compiles (c : Compiler) (is : List Instruction) (s : Setting) : Phrase → Prop
  | .expr e => Lays (Compile.expr e) c is s
  | .exprs es => Lays (Compile.exprs es) c is s
  | .pairs entries => Lays (Compile.pairs entries) c is s
  | .branch block => ∀ span, Lays (Compile.branch (.mk block span)) c is s
  | .body block => (block = [] → c.fragment.Unfinished) →
      ∀ span, Lays (do statements block; finishBody span) c is s
  | .stmt x => ∃ c', statement x c = .ok () c' ∧ c'.setting = s ∧ c.Wrote is c' ∧
      (x.isBind = true → c'.fragment.Unfinished)
  | .stmts ss => Lays (statements ss) c is s

/-- **What has a layout compiles to it.** -/
theorem Writes.compiles {s s' : Setting} {start : Nat} {p : Phrase} {is : List Instruction}
    (hw : Writes s start p is s') {c : Compiler} (hc : c.Stands s start) :
    p.Compiles c is s' := by
  induction hw generalizing c with
  | @ident _ _ name span symbol symbols i hresolve hload =>
    obtain rfl := hc.setting
    show Lays (expr (.ident name span)) c [i] _
    rw [expr]
    have hwrote : c.Wrote [] { c with symbols } := Compiler.wrote_nil rfl rfl
    exact ⟨_, (bind_of_ok _ (resolve_of_resolve span hresolve)).trans (load_of_load? span hload),
      rfl, hwrote.emit i⟩
  | @number _ _ _ n span _ hfinite hintern =>
    obtain rfl := hc.setting
    show Lays (expr (.number n span)) c _ _
    rw [expr, if_pos hfinite]
    exact lays_literal span hintern
  | @boolean _ _ b =>
    obtain rfl := hc.setting
    refine ⟨c.emit (if b then .pushTrue else .pushFalse), ?_, rfl, Compiler.wrote_emit c _⟩
    cases b <;> rw [expr] <;> rfl
  | @string _ _ _ t span _ hintern =>
    obtain rfl := hc.setting
    show Lays (expr (.string t span)) c _ _
    rw [expr]
    exact lays_literal span hintern
  | @unary _ _ _ op e span _ _ ih =>
    show Lays (expr (.unary op e span)) c _ _
    rw [expr]
    exact (ih hc).step fun _ => rfl
  | @less _ _ _ _ left right span _ _ h₁ _ ih₁ ih₂ =>
    show Lays (expr (.binary .less left right span)) c _ _
    rw [expr]
    exact Lays.bind hc h₁ (ih₁ hc) fun c₁ hc₁ => (ih₂ hc₁).step fun _ => rfl
  | @binary _ _ _ _ op left right span _ _ hop h₁ _ ih₁ ih₂ =>
    show Lays (expr (.binary op left right span)) c _ _
    rw [expr]
    · exact Lays.bind hc h₁ (ih₁ hc) fun c₁ hc₁ => (ih₂ hc₁).step fun _ => rfl
    · exact hop
  | @cond s s₁ s₂ s₃ start test yes no span ts ys ns toNo toEnd h₁ h₂ _ htoNo hnear htoEnd hfar
      ih₁ ih₂ ih₃ =>
    obtain ⟨c₁, hrun₁, hsetting₁, hwrote₁⟩ := ih₁ hc
    have hc₁ := hc.wrote h₁ hsetting₁ hwrote₁
    -- Behind the test stands a jump, whose target is not known yet.
    have hjump : (c₁.emit (.jumpNotTruthy hole)).Stands s₁ (start + sizeAll ts + 3) :=
      ⟨hsetting₁, by rw [(Compiler.wrote_emit c₁ _).size, hc₁.size]; rfl, hc₁.level⟩
    obtain ⟨c₂, hrun₂, hsetting₂, hwrote₂⟩ := ih₂ hjump yes.span
    have hc₂ := hjump.wrote h₂ hsetting₂ hwrote₂
    rw [← hc.size] at htoNo
    -- Between the branches stands another one, and the first has got its
    -- target.
    have hmiddle : (between c₁ c₂).Stands s₂ toNo :=
      ⟨hsetting₂, size_between hwrote₁ hwrote₂ htoNo, hc₂.level⟩
    obtain ⟨c₃, hrun₃, rfl, hwrote₃⟩ := ih₃ hmiddle span
    rw [← branch_eq] at hrun₂
    exact lays_cond hrun₁ hwrote₁ hrun₂ hwrote₂ hrun₃ hwrote₃ htoNo hnear htoEnd hfar
  | @function _ _ _ name params block span is loads _ hp _ hleave hcaptures hloads hconstants ih =>
    obtain rfl := hc.setting
    obtain ⟨c₁, hrun, rfl, houter, hcode⟩ :=
      ih (stands_opened hc.level name params) (fun _ => ⟨rfl, rfl⟩) span
    obtain ⟨c₂, hbuild, hsetting, hwrote⟩ :=
      lays_buildClosure span houter hleave hcaptures hloads hconstants
    have hcode' : c₁.fragment.code = (encodeAll is).toArray := Array.ext' hcode
    rw [hcode'] at hsetting
    obtain ⟨body, place⟩ := block
    refine ⟨c₂, ?_, hsetting, hwrote⟩
    rw [expr_function body place span c hp, ← bind_assoc]
    exact (bind_of_ok _ hrun).trans hbuild
  | @call _ _ _ _ callee args span _ _ h₁ _ hlt ih₁ ih₂ =>
    show Lays (expr (.call callee args span)) c _ _
    rw [expr]
    exact Lays.bind hc h₁ (ih₁ hc) fun c₁ hc₁ => (ih₂ hc₁).step (emit_narrow_of_lt .call _ span hlt)
  | @array _ _ _ items span _ _ hlt ih =>
    show Lays (expr (.array items span)) c _ _
    rw [expr]
    exact (ih hc).step (emit_wide_of_lt .makeArray _ span hlt)
  | @index _ _ _ _ container key span _ _ h₁ _ ih₁ ih₂ =>
    show Lays (expr (.index container key span)) c _ _
    rw [expr]
    exact Lays.bind hc h₁ (ih₁ hc) fun c₁ hc₁ => (ih₂ hc₁).step fun _ => rfl
  | @map _ _ _ entries span _ _ hlt ih =>
    show Lays (expr (.map entries span)) c _ _
    rw [expr]
    exact (ih hc).step (emit_wide_of_lt .makeMap _ span hlt)
  | exprsNil => exact ⟨c, by rw [exprs]; rfl, hc.setting, .refl c⟩
  | pairsNil => exact ⟨c, by rw [pairs]; rfl, hc.setting, .refl c⟩
  | stmtsNil => exact ⟨c, by rw [statements]; rfl, hc.setting, .refl c⟩
  | @exprsCons _ _ _ _ e es _ _ h₁ _ ih₁ ih₂ =>
    show Lays (exprs (e :: es)) c _ _
    rw [exprs]
    exact Lays.bind hc h₁ (ih₁ hc) fun c₁ hc₁ => ih₂ hc₁
  | @pairsCons _ _ _ _ _ key value rest _ _ _ h₁ h₂ _ ih₁ ih₂ ih₃ =>
    show Lays (pairs ((key, value) :: rest)) c _ _
    rw [pairs]
    exact Lays.bind hc h₁ (ih₁ hc) fun c₁ hc₁ =>
      Lays.bind hc₁ h₂ (ih₂ hc₁) fun c₂ hc₂ => ih₃ hc₂
  | branchNil =>
    intro span
    rw [branch, statements]
    exact ⟨_, rfl, hc.setting, Compiler.wrote_emit c .pushNull⟩
  | @branchExpr _ _ _ e place is _ ih =>
    intro span
    obtain ⟨c₁, hrun, hsetting, hwrote⟩ := ih hc
    rw [branch, statements, statement, bind_assoc, bind_assoc]
    refine ⟨_, bind_of_ok _ hrun, hsetting, hwrote.outer, ?_⟩
    -- A statement discards its value; a branch takes this back.
    show (c₁.fragment.emit .pop).dropLast.code.toList = _
    rw [Fragment.code_dropLast_emit, hwrote.code]
  | branchCons hlast h₁ _ ih₁ ih₂ =>
    intro span
    obtain ⟨c₁, hrun, hsetting, hwrote, -⟩ := ih₁ hc
    rw [branch_cons span hlast]
    exact Lays.bind hc h₁ ⟨c₁, hrun, hsetting, hwrote⟩ fun c₂ hc₂ => ih₂ hc₂ span
  | bodyNil =>
    intro hstart span
    rw [statements, pure_bind]
    exact ⟨_, finishBody_of_unfinished (hstart rfl) span, hc.setting,
      Compiler.wrote_emit c .returnNull⟩
  | bodyExpr _ ih =>
    intro _ span
    obtain ⟨c₁, hrun, hsetting, hwrote⟩ := ih hc
    rw [body_cons, statements, pure_bind, statement, bind_assoc]
    exact ⟨_, (bind_of_ok _ hrun).trans (finishBody_emit_pop c₁ span), hsetting, hwrote.emit _⟩
  | @bodyRet _ _ _ e place _ hdeep _ ih =>
    intro _ span
    obtain rfl := hc.setting
    obtain ⟨c₁, hrun, hsetting, hwrote⟩ := lays_ret place hc.level hdeep (ih hc)
    rw [body_cons, statements, pure_bind]
    exact ⟨_, (bind_of_ok _ hrun).trans (finishBody_emit_returnValue c₁ span), hsetting,
      hwrote.emit _⟩
  | bodyCons hlast h₁ _ ih₁ ih₂ =>
    intro _ span
    obtain ⟨c₁, hrun, hsetting, hwrote, hbind⟩ := ih₁ hc
    -- If this was the last statement it was a binding, and the body is finished
    -- by returning null.
    have hrest := ih₂ (hc.wrote h₁ hsetting hwrote) fun h => hbind (hlast h)
    obtain ⟨c₂, hrun₂, hsetting₂, hwrote₂⟩ := hrest span
    rw [body_cons]
    exact ⟨c₂, (bind_of_ok _ hrun).trans hrun₂, hsetting₂, hwrote.trans hwrote₂⟩
  | stmtExpr _ ih =>
    obtain ⟨c₁, hrun, hsetting, hwrote⟩ := ih hc
    refine ⟨c₁.emit .pop, ?_, hsetting, hwrote.emit _, fun hbind => Bool.noConfusion hbind⟩
    rw [statement]
    exact bind_of_ok _ hrun
  | @stmtBind _ _ _ name e span is i _ hstore ih =>
    obtain ⟨c₁, hrun, rfl, hwrote⟩ := ih hc
    have hwrote' : c₁.Wrote [] (defined c₁ name.name) := Compiler.wrote_nil rfl rfl
    refine ⟨(defined c₁ name.name).emit i, ?_, rfl, hwrote.trans (hwrote'.emit i), fun _ => ?_⟩
    · rw [statement, bind_of_ok _ hrun]
      exact store_of_store? (c := defined c₁ name.name) name.span hstore
    · exact Symbol.unfinished_of_store? hstore _
  | @stmtRet _ _ _ e span _ hdeep _ ih =>
    obtain rfl := hc.setting
    obtain ⟨c₁, hrun, hsetting, hwrote⟩ := lays_ret span hc.level hdeep (ih hc)
    exact ⟨c₁.emit .returnValue, hrun, hsetting, hwrote.emit _, fun hbind => Bool.noConfusion hbind⟩
  | @stmtsCons _ _ _ _ x rest _ _ h₁ _ ih₁ ih₂ =>
    obtain ⟨c₁, hrun, hsetting, hwrote, -⟩ := ih₁ hc
    show Lays (statements (x :: rest)) c _ _
    rw [statements]
    exact Lays.bind hc h₁ ⟨c₁, hrun, hsetting, hwrote⟩ fun c₂ hc₂ => ih₂ hc₂

/-- **A program that has a layout compiles**, and its code is the layout. -/
theorem Writes.compile {t : SymbolTable} {constants : Array Value} {program : List Stmt}
    {is : List Instruction} {s : Setting} (hw : Writes ⟨t, constants⟩ 0 (.stmts program) is s)
    (ht : t.outer = []) : ∃ c, (Compiler.withState t constants).compile program = (.ok (), c) ∧
      c.setting = s ∧ c.bytecode = ⟨(encodeAll is).toArray, s.constants⟩ := by
  obtain ⟨c, hrun, rfl, hwrote⟩ := hw.compiles ⟨rfl, rfl, Compiler.level_withState ht⟩
  have hcode : c.fragment.code = (encodeAll is).toArray := Array.ext' hwrote.code
  refine ⟨c, ?_, rfl, ?_⟩
  · rw [Compiler.compile, hrun]
  · rw [Compiler.bytecode, hcode]
    rfl

end StackScript
