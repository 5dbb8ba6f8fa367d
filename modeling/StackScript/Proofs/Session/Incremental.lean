import StackScript.Proofs.Compiler.Completeness
import StackScript.Proofs.Compiler.Emitted
import StackScript.Proofs.Machine.Alongside
import StackScript.Proofs.Session.Soundness

/-!
# Evaluating a program in parts

A program can be given to a session as a whole, or its first statements as one
program and the rest as another. Main statement: once the first part has been
evaluated without an error, the rest compiles, and it comes to what the whole
program comes to. The names and the constants are then the same; the values are
the same but for the identities of closures, because each evaluation gives out
one identity for its own top level.

The code of the second part alone is its code in the whole program, moved; and
when the machine that runs the whole program has come to the end of the first
part, it is where a new machine would be.
-/

namespace StackScript

open Instruction (encodeAll sizeAll Moved)

/-! ## Layouts of programs -/

section

variable {c c' : Setting} {start : Nat} {is : List Instruction}

/-- A program in two parts. -/
theorem Writes.stmts_append {program rest : List Stmt}
    (hw : Writes c start (.stmts (program ++ rest)) is c') :
    ∃ is₁ is₂ c₁, is = is₁ ++ is₂ ∧ Writes c start (.stmts program) is₁ c₁ ∧
      Writes c₁ (start + sizeAll is₁) (.stmts rest) is₂ c' := by
  induction program generalizing c start is with
  | nil => exact ⟨[], is, c, rfl, .stmtsNil, hw⟩
  | cons x program ih =>
    cases hw with
    | @stmtsCons _ _ _ _ _ _ is js hx hrest =>
      obtain ⟨is₁, is₂, c₁, rfl, h₁, h₂⟩ := ih hrest
      refine ⟨is ++ is₁, is₂, c₁, (List.append_assoc ..).symm, .stmtsCons hx h₁, ?_⟩
      rw [Instruction.add_sizeAll_append]
      exact h₂

/-- The code of a program that ends in an expression ends in discarding its
value. -/
theorem Writes.getLast?_of_endsInExpr {program : List Stmt}
    (hw : Writes c start (.stmts program) is c') (h : endsInExpr program = true) :
    is.getLast? = some .pop := by
  induction program generalizing c start is with
  | nil => cases h
  | cons x rest ih =>
    cases hw with
    | @stmtsCons _ _ _ _ _ _ is js hx hrest =>
      cases rest with
      | nil =>
        cases hrest
        cases hx with
        | stmtExpr => rw [List.append_nil, List.getLast?_concat]
        | stmtBind | stmtRet => cases h
      | cons y rest =>
        have hcons : y :: rest = [] → x.isExpr = false := nofun
        rw [endsInExpr_cons hcons] at h
        rw [List.getLast?_append, ih hrest h]
        rfl

/-- There are no closures among the constants of a program. -/
theorem Writes.isConstant {p : Phrase} (hw : Writes c start p is c')
    (hc : ∀ v ∈ c.constants.toList, v.isConstant = true) :
    ∀ v ∈ c'.constants.toList, v.isConstant = true :=
  hw.constants_all ⟨fun _ => rfl, fun _ => rfl, fun _ _ => rfl⟩ hc

/-- A layout of the top level is itself, not moved. -/
theorem Writes.not_moved {p : Phrase} (hw : Writes c start p is c') (hc : c.AtTop) :
    List.Forall₂ (Moved 0) is is := by
  have heq : ∀ i j, Moved 0 i j → i = j := by
    intro i j hij
    cases hij with
    | jump ht => rw [UInt16.toNat_inj.1 ht]
    | jumpNotTruthy ht => rw [UInt16.toNat_inj.1 ht]
    | same => rfl
  obtain ⟨is', -, his⟩ := hw.relocate (Nat.add_zero start).symm hc
  have : is' = is := List.forall₂_eq_eq_eq ▸ his.imp heq
  rw [this] at his
  exact his

/-- A program that is found elsewhere. -/
def Writes.relocation {program : List Stmt} (hw : Writes c 0 (.stmts program) is c') {code : Code}
    {shift : Nat} {moved : List Instruction} (hplaced : code.Placed shift moved)
    (hmoved : List.Forall₂ (Moved shift) is moved) : Relocation code is where
  shift := shift
  moved := moved
  placed := hplaced
  forall₂ := hmoved
  aimed i hi t ht := by
    obtain ⟨front, back, heq, htarget, hback⟩ := (hw.balanced 0).1.aimed hi ht
    exact ⟨front, back, heq, htarget.trans (Nat.zero_add _), hback⟩

end

namespace Session

variable {s s' : Session} {program : List Stmt} {bytecode : Bytecode}

/-! ## Default sessions -/

/-- **A session with the default configuration** in which all closures have
identities that were given out. -/
structure Numbered (s : Session) : Prop where
  /-- The configuration is the default. -/
  config : s.config = {}
  /-- There are no closures among the constants. -/
  constants : ∀ v ∈ s.constants.toList, v.isConstant = true
  /-- The identities of all closures that the globals hold were given out. -/
  globals : List.Forall₂ (Renamed id s.nextIdentity) s.globals.slots.toList s.globals.slots.toList

theorem Numbered.prepared (h : s.Numbered) : s.prepared = s := by
  rw [Session.prepared, h.config]
  rfl

theorem Sound.atTop (h : s.Sound) : (⟨s.symbols, s.constants⟩ : Setting).AtTop :=
  ⟨h.coherent, h.outer⟩

/-- The layout of a program that compiles, and the session afterwards. -/
theorem Numbered.compile (h : s.Numbered) (hs : s.Sound)
    (hcompile : s.compile program = (.ok bytecode, s')) :
    ∃ is, Writes ⟨s.symbols, s.constants⟩ 0 (.stmts program) is ⟨s'.symbols, s'.constants⟩ ∧
      bytecode = ⟨(encodeAll is).toArray, s'.constants⟩ ∧
      s' = { s with symbols := s'.symbols, constants := s'.constants } := by
  have hlayout := hs.compile hcompile
  rw [h.prepared] at hlayout
  exact hlayout

/-- A program that has a layout compiles. -/
theorem Numbered.compile_eq (h : s.Numbered) (hs : s.Sound) {is : List Instruction} {c : Setting}
    (hw : Writes ⟨s.symbols, s.constants⟩ 0 (.stmts program) is c) :
    s.compile program = (.ok ⟨(encodeAll is).toArray, c.constants⟩,
      { s with symbols := c.symbols, constants := c.constants }) := by
  obtain ⟨compiler, hcompiler, rfl, hbytecode⟩ := hw.compile hs.outer
  rw [Session.compile, h.prepared, hcompiler]
  dsimp only
  rw [hbytecode]
  rfl

/-- What an evaluation comes to, given what the run comes to. -/
def valueOf (m : Machine) : Except Halt Unit → Except SessionError Value
  | .ok _ => .ok m.lastPopped
  | .error cause => .error (.runtime cause)

/-- **An evaluation is a run** of the program's code, which ends well. -/
theorem Numbered.eval_eq (h : s.Numbered) (hs : s.Sound)
    (hcompile : s.compile program = (.ok bytecode, s')) (journal : Journal) :
    ∃ j outcome m, Finishes (Machine.load bytecode s.globals none s.nextIdentity j) outcome m ∧
      m.EndsWell bytecode.code outcome ∧ (s.eval journal program).result = valueOf m outcome ∧
      (s.eval journal program).output = m.output ∧ (s.eval journal program).session =
        { s' with globals := m.globals, nextIdentity := m.nextIdentity } := by
  obtain ⟨is, -, -, hs'⟩ := h.compile hs hcompile
  have hconfig : s'.config = {} := by rw [hs']; exact h.config
  have hglobals : s'.globals = s.globals := by rw [hs']
  have hidentity : s'.nextIdentity = s.nextIdentity := by rw [hs']
  obtain ⟨outcome, m, hfinishes, hrun, -, hwell⟩ := hs.run hcompile s'.config.budget s'.nextIdentity
    (journal.record fun _ =>
      .compiled program.length bytecode.code.size bytecode.constants.size)
  rw [hglobals, hconfig, hidentity] at hfinishes
  refine ⟨_, outcome, m, hfinishes, hwell, ?_⟩
  obtain ⟨hresult, houtput, hsession⟩ := eval_of_run hcompile hrun
  rw [hresult, houtput, hsession, hconfig]
  cases outcome <;> exact ⟨rfl, rfl, rfl⟩

section

variable {is : List Instruction} {c : Setting} {code : Code} {pool : Array Value}

/-- A program, and the same program at the beginning of other code. -/
def Sound.pairing (hs : s.Sound)
    (hw : Writes ⟨s.symbols, s.constants⟩ 0 (.stmts program) is c) (hcode : code.Placed 0 is)
    (hfirst : c.constants.toList <+: pool.toList)
    (hconstants : ∀ v ∈ pool.toList, v.isConstant = true) : Pairing :=
  (hw.relocation hcode (hw.not_moved hs.atTop)).pairing (.same (s.nextIdentity + 1)) hfirst
    hconstants ""

/-- Machines that have been loaded with the two are in step. -/
theorem Numbered.inStep (h : s.Numbered) (hs : s.Sound)
    (hw : Writes ⟨s.symbols, s.constants⟩ 0 (.stmts program) is c) (hcode : code.Placed 0 is)
    (hfirst : c.constants.toList <+: pool.toList)
    (hconstants : ∀ v ∈ pool.toList, v.isConstant = true) (j j' : Journal) :
    (hs.pairing hw hcode hfirst hconstants).InStep
      (Machine.load ⟨code, pool⟩ s.globals none s.nextIdentity j)
      (Machine.load ⟨(encodeAll is).toArray, c.constants⟩ s.globals none s.nextIdentity j') :=
  Pairing.inStep_load (Machine.idle_load ..) (Relocation.begins_zero is)
    (Relocation.not_discarded_zero is) rfl (h.globals.imp fun _ _ hv => hv.mono (Nat.le_succ _)) rfl
    (Nat.le_refl _) rfl rfl j'

end

/-- A program run alongside itself shows that the identities of all closures are
given out. -/
theorem Numbered.eval (h : s.Numbered) (hs : s.Sound) (journal : Journal) (program : List Stmt) :
    (s.eval journal program).session.Numbered := by
  cases hcompile : s.compile program with
  | mk result s' =>
    cases result with
    | error e =>
      have hsession : (s.eval journal program).session = s := by
        rw [Session.eval, hcompile]
        exact (hs.compile_fault hcompile).2.trans h.prepared
      rw [hsession]
      exact h
    | ok bytecode =>
      obtain ⟨is, hw, rfl, hs'⟩ := h.compile hs hcompile
      obtain ⟨j, outcome, m, hfinishes, hwell, -, -, hsession⟩ := h.eval_eq hs hcompile journal
      have hconstants := hw.isConstant h.constants
      have hstart := h.inStep hs hw (.all is) (List.prefix_refl _) hconstants j j
      have hend : Code.decodeAt (encodeAll is).toArray ((encodeAll is).toArray.size + 0) =
          none := by
        rw [Nat.add_zero, List.size_toArray, Instruction.length_encodeAll]
        exact Instruction.decodeAt_sizeAll is
      obtain ⟨y, hfinishes', hshared, -⟩ := hstart.finishes hfinishes hwell hend
      obtain ⟨-, rfl⟩ := hfinishes.unique hfinishes'
      rw [hsession]
      refine ⟨?_, hconstants, hshared.globals⟩
      rw [hs']
      exact h.config

/-- A program that is compiled leaves names and constants behind, and no globals
or identities. -/
theorem Numbered.compile_session (h : s.Numbered) (hs : s.Sound) (program : List Stmt) :
    (s.compile program).2.Numbered := by
  cases hcompile : s.compile program with
  | mk result s' =>
    cases result with
    | error e => exact (hs.compile_fault hcompile).2.trans h.prepared ▸ h
    | ok bytecode =>
      obtain ⟨is, hw, -, hs'⟩ := h.compile hs hcompile
      rw [hs']
      exact ⟨h.config, hw.isConstant h.constants, h.globals⟩

/-- **In every state of a default session** the identities of all closures are
given out. -/
theorem Reachable.numbered (h : Reachable {} s) : s.Numbered := by
  induction h with
  | start => exact ⟨rfl, nofun, .nil⟩
  | @evalSource s journal source hs ih =>
    rw [Session.evalSource]
    split
    · exact ih
    · exact ih.eval hs.sound journal _
  | @evalLine s journal source hs ih =>
    rw [Session.evalLine]
    split
    · exact ih
    · exact ih.eval hs.sound journal _
  | @compileSource s journal source hs ih =>
    rw [Session.compileSource]
    split
    · exact ih
    · next program _ =>
      have hsession := ih.compile_session hs.sound program
      split
      · next hcompile =>
        rw [hcompile] at hsession
        exact hsession
      · next hcompile =>
        rw [hcompile] at hsession
        exact hsession
  | eval journal program hs ih => exact ih.eval hs.sound journal program
  | compile program hs ih => exact ih.compile_session hs.sound program
  | reset _ ih => exact ⟨ih.config, nofun, .nil⟩

/-! ## Two parts of a program -/

/-- **A machine that can go on** where another has come to the end of its
code. -/
structure GoesOn (pool : Array Value) (x x' : Machine) : Prop where
  /-- It has the constants of the whole program. -/
  constants : x.constants = pool
  /-- The same has been written. -/
  output : x.output = x'.output
  /-- Instructions are not counted. -/
  budget : x.budget = none
  /-- As many identities have been given out. -/
  identity : x.nextIdentity = x'.nextIdentity
  /-- The globals are the same. -/
  globals : List.Forall₂ (Renamed id x.nextIdentity) x.globals.slots.toList x'.globals.slots.toList

section

variable {p₁ p₂ : List Stmt} {is₁ is₂ : List Instruction} {c₁ c₂ : Setting} {x x' y' : Machine}

/-- **The first part runs in the whole program as it does alone.** -/
theorem Numbered.first_part (h : s.Numbered) (hs : s.Sound)
    (hw₁ : Writes ⟨s.symbols, s.constants⟩ 0 (.stmts p₁) is₁ c₁)
    (hw₂ : Writes c₁ (sizeAll is₁) (.stmts p₂) is₂ c₂) {j : Journal}
    (hfinishes : Finishes (Machine.load ⟨(encodeAll is₁).toArray, c₁.constants⟩ s.globals none
      s.nextIdentity j) (.ok ()) x')
    (hidle : x'.Idle (encodeAll is₁).toArray (encodeAll is₁).toArray.size) (j' : Journal) :
    ∃ k x, Path k (Machine.load ⟨(encodeAll (is₁ ++ is₂)).toArray, c₂.constants⟩ s.globals none
        s.nextIdentity j') x ∧
      x.Idle (encodeAll (is₁ ++ is₂)).toArray (sizeAll is₁) ∧ GoesOn c₂.constants x x' := by
  have hc₁ := hs.atTop.extends (hw₁.extends hs.coherent)
  have hstart := h.inStep hs hw₁ (Code.Placed.all (is₁ ++ is₂)).left
    (hw₂.extends hc₁.coherent).constants (hw₂.isConstant (hw₁.isConstant h.constants)) j' j
  obtain ⟨k, x, hpath, hx⟩ := hstart.ends hfinishes
  refine ⟨k, x, hpath, ?_, ?_⟩
  · have hx' := hx.idle hidle
    rw [show (encodeAll is₁).toArray.size = sizeAll is₁ from
      Instruction.length_encodeAll is₁] at hx'
    exact hx'
  · obtain ⟨n, V, hlock⟩ := hx
    refine ⟨hlock.constants, hlock.output.trans String.empty_append, hlock.budget,
      hlock.identity.trans hlock.identity'.symm, ?_⟩
    rw [hlock.identity]
    exact hlock.globals

/-- **The second part runs in the whole program as it does alone**, one identity
aside. -/
theorem second_part {is : List Instruction} (hw : Writes c₁ 0 (.stmts p₂) is c₂)
    (hmoved : List.Forall₂ (Moved (sizeAll is₁)) is is₂)
    (hconstants : ∀ v ∈ c₂.constants.toList, v.isConstant = true)
    (hx : x.Idle (encodeAll (is₁ ++ is₂)).toArray (sizeAll is₁)) (hgo : GoesOn c₂.constants x x')
    {j : Journal} {outcome : Except Halt Unit}
    (hfinishes : Finishes (Machine.load ⟨(encodeAll is).toArray, c₂.constants⟩ x'.globals none
      x'.nextIdentity j) outcome y')
    (hwell : y'.EndsWell (encodeAll is).toArray outcome) :
    let rename := (Renaming.skip x'.nextIdentity).rename
    ∃ y, Finishes x outcome y ∧ y.output = x'.output ++ y'.output ∧
      List.Forall₂ (Renamed rename y.nextIdentity) y.globals.slots.toList y'.globals.slots.toList ∧
      (outcome = .ok () → endsInExpr p₂ = true →
        Renamed rename y.nextIdentity y.lastPopped y'.lastPopped) := by
  intro rename
  have hplaced := (Code.Placed.all (is₁ ++ is₂)).right
  rw [Nat.zero_add] at hplaced
  let p := (hw.relocation hplaced hmoved).pairing (.skip x'.nextIdentity) (List.prefix_refl _)
    hconstants x.output
  have hbelow : ∀ i < x.nextIdentity, rename i = id i := fun i hi =>
    if_pos (hgo.identity ▸ hi)
  have hstart : p.InStep x (Machine.load ⟨(encodeAll is).toArray, c₂.constants⟩ x'.globals none
      x'.nextIdentity j) :=
    Pairing.inStep_load hx (Relocation.begins_zero is) (Relocation.not_discarded_zero is)
      hgo.constants
      (hgo.globals.imp fun _ _ hv => hv.congr hbelow (Nat.le_refl _))
      (by rw [hgo.identity]; exact if_neg (Nat.lt_irrefl _)) (Nat.le_of_eq hgo.identity.symm) rfl
      hgo.budget j
  have hsize : (encodeAll is).toArray.size = sizeAll is := Instruction.length_encodeAll is
  have hend : Code.decodeAt (encodeAll (is₁ ++ is₂)).toArray
      ((encodeAll is).toArray.size + sizeAll is₁) = none := by
    rw [hsize, ← Instruction.sizeAll_of_moved hmoved, Nat.add_comm, ← Instruction.sizeAll_append]
    exact Instruction.decodeAt_sizeAll _
  obtain ⟨y, hy, hshared, hpopped⟩ := hstart.finishes hfinishes hwell hend
  refine ⟨y, hy, hgo.output ▸ hshared.output, hshared.globals, fun hok hexpr => hpopped hok ?_⟩
  exact ⟨hsize, hw.getLast?_of_endsInExpr hexpr⟩

end

/-! ## Incremental and batch evaluation -/

/-- **Two evaluations come to the same**: to related values, which only matter
if they are those of a last expression, or to the same run-time error. -/
def SameOutcome (R : Value → Value → Prop) (valued : Bool) :
    Except SessionError Value → Except SessionError Value → Prop
  | .ok v, .ok w => valued = true → R v w
  | .error e, .error e' => e = e' ∧ ∃ cause, e = .runtime (.error cause)
  | _, _ => False

/-- The same outcome of two runs is the same outcome of the evaluations. -/
theorem sameOutcome_valueOf {R : Value → Value → Prop} {valued : Bool} {code : Code}
    {outcome : Except Halt Unit} {y y' : Machine} (hwell : y'.EndsWell code outcome)
    (hpopped : outcome = .ok () → valued = true → R y.lastPopped y'.lastPopped) :
    SameOutcome R valued (valueOf y outcome) (valueOf y' outcome) := by
  match outcome, hwell with
  | .ok (), _ => exact hpopped rfl
  | .error (.error e), _ => exact ⟨rfl, e, rfl⟩

theorem eq_ok_of_valueOf {m : Machine} {outcome : Except Halt Unit} {v : Value}
    (h : valueOf m outcome = .ok v) : outcome = .ok () := by
  cases outcome with
  | ok => rfl
  | error => cases h

/-- **Incremental evaluation is batch evaluation.** In any state of a default
session, a program in two parts compiles, and its first part is evaluated
without an error. Then the second part compiles too, and evaluating it comes to
what evaluating the whole program comes to: the same run-time error, or the same
value of a last expression, with the same output, names, constants and globals.
Values are the same but for the identities of closures, one of which goes to the
second part's own top level. -/
theorem eval_append {p₁ p₂ : List Stmt} {journal : Journal} {v : Value} (hs : Reachable {} s)
    (hcompile : s.compile (p₁ ++ p₂) = (.ok bytecode, s'))
    (heval : (s.eval journal p₁).result = .ok v) (journal₂ journal' : Journal) :
    let r₁ := s.eval journal p₁
    let r₂ := r₁.session.eval journal₂ p₂
    let r := s.eval journal' (p₁ ++ p₂)
    let Same := Renamed (Renaming.skip r₁.session.nextIdentity).rename r.session.nextIdentity
    (∃ bytecode₂ s₂, r₁.session.compile p₂ = (.ok bytecode₂, s₂)) ∧
      SameOutcome Same (endsInExpr p₂) r.result r₂.result ∧
      r.output = r₁.output ++ r₂.output ∧
      r.session.symbols = r₂.session.symbols ∧
      r.session.constants = r₂.session.constants ∧
      List.Forall₂ Same r.session.globals.slots.toList r₂.session.globals.slots.toList := by
  intro r₁ r₂ r Same
  have hsound := hs.sound
  have hnumbered := hs.numbered
  have hs₁ : Reachable {} r₁.session := .eval journal p₁ hs
  -- The layout of the whole program, in two parts.
  obtain ⟨is, hw, rfl, -⟩ := hnumbered.compile hsound hcompile
  obtain ⟨is₁, is₂, c₁, rfl, hw₁, hw₂⟩ := hw.stmts_append
  rw [Nat.zero_add] at hw₂
  have hc₁ := hsound.atTop.extends (hw₁.extends hsound.coherent)
  obtain ⟨is', hw₂', hmoved⟩ := hw₂.relocate (Nat.zero_add _).symm hc₁
  -- The evaluation of the first part.
  have hcompile₁ := hnumbered.compile_eq hsound hw₁
  obtain ⟨j₁, outcome₁, x', hfinishes₁, hwell₁, hresult₁, houtput₁, hsession₁⟩ :=
    hnumbered.eval_eq hsound hcompile₁ journal
  obtain rfl := eq_ok_of_valueOf (hresult₁.symm.trans heval)
  -- The evaluation of the second part.
  have hw₂'' : Writes ⟨r₁.session.symbols, r₁.session.constants⟩ 0 (.stmts p₂) is'
      ⟨s'.symbols, s'.constants⟩ := by
    rw [show r₁.session = _ from hsession₁]
    exact hw₂'
  have hcompile₂ := hs₁.numbered.compile_eq hs₁.sound hw₂''
  obtain ⟨j₂, outcome, y', hfinishes₂, hwell₂, hresult₂, houtput₂, hsession₂⟩ :=
    hs₁.numbered.eval_eq hs₁.sound hcompile₂ journal₂
  -- The evaluation of the whole program, in which both are found.
  obtain ⟨j, outcome', y, hfinishes, -, hresult, houtput, hsession⟩ :=
    hnumbered.eval_eq hsound hcompile journal'
  obtain ⟨k, x, hpath, hx, hgo⟩ := hnumbered.first_part hsound hw₁ hw₂ hfinishes₁ hwell₁ j
  have hglobals₁ : r₁.session.globals = x'.globals := by rw [show r₁.session = _ from hsession₁]
  have hidentity₁ : r₁.session.nextIdentity = x'.nextIdentity := by
    rw [show r₁.session = _ from hsession₁]
  rw [hglobals₁, hidentity₁] at hfinishes₂
  obtain ⟨y₂, hy₂, hwritten, hglobals, hpopped⟩ := second_part hw₂' hmoved
    (hw.isConstant hnumbered.constants) hx hgo hfinishes₂ hwell₂
  obtain ⟨rfl, rfl⟩ := hfinishes.unique (hy₂.of_path hpath)
  have hsame : Same = Renamed (Renaming.skip x'.nextIdentity).rename y.nextIdentity := by
    show Renamed (Renaming.skip r₁.session.nextIdentity).rename r.session.nextIdentity = _
    rw [hidentity₁, show r.session = _ from hsession]
  refine ⟨⟨_, _, hcompile₂⟩, ?_, ?_, ?_, ?_, ?_⟩
  · rw [hsame, show r.result = _ from hresult, show r₂.result = _ from hresult₂]
    exact sameOutcome_valueOf hwell₂ hpopped
  · rw [show r.output = _ from houtput, show r₁.output = _ from houtput₁,
      show r₂.output = _ from houtput₂, hwritten]
  · rw [show r.session = _ from hsession, show r₂.session = _ from hsession₂]
  · rw [show r.session = _ from hsession, show r₂.session = _ from hsession₂]
  · rw [hsame, show r.session = _ from hsession, show r₂.session = _ from hsession₂]
    exact hglobals

/-- The second program calls a function of the first that has captured a
variable, and makes another one. The two outputs together are that of the
program in one piece, and so is the result but for the numbers of functions. -/
theorem eval_append_closures :
    let s := ((Session.start {}).evalSource (.empty false) "let x = 1;").session
    let p₁ := (parse "let f = fn(n) { fn() { n + x } }; let g = f(1); puts(g())").toOption.getD []
    let p₂ := (parse "let h = if (g() > 1) { f(2) } else { g }; puts(h()); [g, h]").toOption.getD []
    let r₁ := s.eval (.empty false) p₁
    let r₂ := r₁.session.eval (.empty false) p₂
    let r := s.eval (.empty false) (p₁ ++ p₂)
    let Same := Renamed (Renaming.skip r₁.session.nextIdentity).rename r.session.nextIdentity
    r₁.output = "2\n" ∧ r₂.output = "3\n" ∧ endsInExpr p₂ = true ∧
      SameOutcome Same true r.result r₂.result ∧ r.output = r₁.output ++ r₂.output ∧
      List.Forall₂ Same r.session.globals.slots.toList r₂.session.globals.slots.toList := by
  intro s p₁ p₂ r₁ r₂ r Same
  have hs : Reachable {} s := .evalSource _ _ .start
  have hcompiles : (s.compile (p₁ ++ p₂)).1.toOption.isSome = true := by decide +kernel
  have hevaluates : r₁.result.toOption.isSome = true := by decide +kernel
  have hlast : endsInExpr p₂ = true := by decide +kernel
  cases hcompile : s.compile (p₁ ++ p₂) with
  | mk result s' =>
    rw [hcompile] at hcompiles
    cases heval : r₁.result with
    | error e =>
      rw [heval] at hevaluates
      cases hevaluates
    | ok v =>
      cases result with
      | error e => cases hcompiles
      | ok bytecode =>
        obtain ⟨-, houtcome, houtput, -, -, hglobals⟩ :=
          eval_append hs hcompile heval (.empty false) (.empty false)
        rw [hlast] at houtcome
        exact ⟨by decide +kernel, by decide +kernel, hlast, houtcome, houtput, hglobals⟩

end Session

end StackScript
