import Mathlib.Tactic.SplitIfs
import StackScript.Proofs.Compiler.Layout

/-!
# The compiler writes the layout

`Compile.expr` and its fellows write what `Writes` describes
(`Compile.spec_expr` and its fellows): a phrase that was compiled has a layout,
and its code has been appended to the code before it. The holes left for jumps
are filled, and what was taken back is gone.

This rests on small facts about the steps of the compiler: what a step that
succeeds has done, and under what condition it succeeds. The second kind is for
the converse, which is proved elsewhere.
-/

namespace StackScript

open Instruction (encodeAll sizeAll)

/-! ## Depth

A compiler keeps a fragment for each open function and a scope for each open
function, so that the two piles have the same height. -/

/-- The fragments that are open are as many as the scopes. -/
def Compiler.Level (c : Compiler) : Prop := c.outer.length = c.symbols.outer.length

namespace SymbolTable

/-- Looking a name up may capture it in every scope on the way, but it opens and
closes none. -/
theorem length_of_resolveFrom {name : String} {inner : Scope} {outer : List Scope}
    {symbol : Symbol} {inner' : Scope} {outer' : List Scope}
    (h : resolveFrom name inner outer = some (symbol, inner', outer')) :
    outer'.length = outer.length := by
  induction outer generalizing inner symbol inner' outer' with
  | nil =>
    obtain ⟨found, -, heq⟩ := Option.map_eq_some_iff.1 h
    cases heq
    rfl
  | cons next rest ih =>
    rw [resolveFrom] at h
    split at h
    · cases h; rfl
    · split at h
      · cases h
      · next hrec =>
        have := ih hrec
        split at h <;> cases h <;> simp [this]

/-- The same for tables: a name that is looked up leaves the compiler in the
function that it was in. -/
theorem length_outer_of_resolve {t t' : SymbolTable} {name : String} {symbol : Symbol}
    (h : t.resolve name = some (symbol, t')) : t'.outer.length = t.outer.length := by
  obtain ⟨⟨symbol', inner, outer⟩, hrec, heq⟩ := Option.map_eq_some_iff.1 h
  cases heq
  exact length_of_resolveFrom hrec

end SymbolTable

/-- Constants and names are kept apart, so a literal that joins the pool leaves
the names alone. -/
theorem Setting.symbols_of_intern {c c' : Setting} {v : Value} {index : UInt16}
    (h : c.intern v = some (index, c')) : c'.symbols = c.symbols := by
  unfold intern at h
  split at h <;> split at h <;> cases h <;> rfl

/-- The same literals are the same values. -/
theorem Compile.eq_of_sameLiteral {v v' : Value} (h : sameLiteral v v' = true) : v' = v := by
  unfold sameLiteral at h
  split at h
  · exact congrArg Value.number (eq_of_beq h).symm
  · exact congrArg Value.string (eq_of_beq h).symm
  · cases h

/-- The index of a literal is where the literal is. -/
theorem Setting.getElem?_intern {c c' : Setting} {v : Value} {index : UInt16}
    (h : c.intern v = some (index, c')) : c'.constants[index.toNat]? = some v := by
  unfold intern at h
  split at h
  · next i hi =>
    obtain ⟨hlt, heq⟩ := Option.ite_none_right_eq_some.1 h
    cases heq
    obtain ⟨hsize, hfound, -⟩ := Array.findIdx?_eq_some_iff_getElem.1 hi
    rw [UInt16.toNat_ofNat_of_lt' hlt, Array.getElem?_eq_getElem hsize,
      Compile.eq_of_sameLiteral hfound]
  · obtain ⟨hlt, heq⟩ := Option.ite_none_right_eq_some.1 h
    cases heq
    rw [UInt16.toNat_ofNat_of_lt' hlt]
    exact Array.getElem?_push_size

/-- Compiling a phrase closes the functions that it opens. -/
theorem Writes.depth {c c' : Setting} {start : Nat} {p : Phrase} {is : List Instruction}
    (h : Writes c start p is c') : c'.symbols.outer.length = c.symbols.outer.length := by
  induction h with
  | ident hresolve _ => exact SymbolTable.length_outer_of_resolve hresolve
  | number _ hintern | string hintern => rw [Setting.symbols_of_intern hintern]
  | boolean | exprsNil | pairsNil | branchNil | bodyNil | stmtsNil => rfl
  | unary _ ih | array _ _ ih | map _ _ ih | branchExpr _ ih | bodyExpr _ ih | bodyRet _ _ ih
  | stmtExpr _ ih | stmtRet _ _ ih => exact ih
  | stmtBind _ _ ih => exact ih
  | less _ _ ih₁ ih₂ | binary _ _ _ ih₁ ih₂ | call _ _ _ ih₁ ih₂ | index _ _ ih₁ ih₂
  | exprsCons _ _ ih₁ ih₂ | branchCons _ _ _ ih₁ ih₂ | bodyCons _ _ _ ih₁ ih₂
  | stmtsCons _ _ ih₁ ih₂ => exact ih₂.trans ih₁
  | cond _ _ _ _ _ _ _ ih₁ ih₂ ih₃ | pairsCons _ _ _ ih₁ ih₂ ih₃ =>
    exact ih₃.trans (ih₂.trans ih₁)
  | function _ _ hleave _ _ _ ih =>
    have hlen := congrArg List.length (SymbolTable.outer_of_leave? hleave)
    rw [ih, SymbolTable.outer_enterFunction, List.length_cons, List.length_cons] at hlen
    exact (Nat.succ_inj.1 hlen).symm

/-! ## The steps of the compiler

A step of the compiler is specified by what holds after it (`Compile.Spec`). A
step may fail, but never because code or a function is missing that the compiler
has given up. -/

/-- The fragment with instructions appended one after the other. -/
def Fragment.emitAll (f : Fragment) : List Instruction → Fragment
  | [] => f
  | i :: is => (f.emit i).emitAll is

/-- The compiler with an instruction appended to the fragment being written. -/
def Compiler.emit (c : Compiler) (i : Instruction) : Compiler :=
  { c with fragment := c.fragment.emit i }

/-- The compiler with a constant added to the pool. -/
def Compiler.push (c : Compiler) (v : Value) : Compiler :=
  { c with constants := c.constants.push v }

namespace Compile

/-- **What a computation of the compiler leads to**: the condition, or an error
of the program. -/
def Spec {α : Type} (x : Compile α) (c : Compiler) (Q : α → Compiler → Prop) : Prop :=
  match x c with
  | .ok a c' => Q a c'
  | .error e _ => e.fault ≠ .corrupted

variable {α β : Type} {c c' : Compiler} {P Q : α → Compiler → Prop}

/-- A computation that succeeds meets its specification if its result does. -/
theorem Spec.of_ok {x : Compile α} {a : α} (h : x c = .ok a c') (hQ : Q a c') : Spec x c Q := by
  rw [Spec, h]
  exact hQ

/-- The other way round: what a specification says of a computation can be used
once the computation is known to succeed. -/
theorem Spec.of_eq_ok {x : Compile α} {a : α} (hx : Spec x c Q) (h : x c = .ok a c') : Q a c' := by
  rw [Spec, h] at hx
  exact hx

/-- **The compiler after a computation** that succeeds. Like the specification
it speaks of the computation as a whole, but it can be evaluated. -/
def after? (x : Compile α) (c : Compiler) : Option Compiler :=
  match x c with
  | .ok _ c' => some c'
  | .error .. => none

/-- What a computation leads to can be found by executing it. -/
theorem Spec.of_after? {x : Compile α} {R : Compiler → Prop} (hx : Spec x c fun _ c' => R c')
    (h : (x.after? c).isSome) : R ((x.after? c).getD default) := by
  unfold after? at h ⊢
  unfold Spec at hx
  cases hrun : x c with
  | ok a c' =>
    rw [hrun] at hx
    exact hx
  | error e c' =>
    rw [hrun] at h
    cases h

/-- A failure meets every specification, as long as the program is to blame.
What has to be excluded is the one fault that is the compiler's own. -/
theorem Spec.fail {fault : CompileFault} (span : Span) (h : fault ≠ .corrupted) :
    Spec (fail fault span) c Q := h

/-- A specification may be weakened. Mostly this is where the last instruction
is appended to what a part has written. -/
theorem Spec.mono {x : Compile α} (hx : Spec x c P) (h : ∀ a c', P a c' → Q a c') :
    Spec x c Q := by
  unfold Spec at *
  split at hx
  · exact h _ _ hx
  · exact hx

/-- One computation after another: the second one may rely on what the first one
leads to. All specifications of phrases are put together with this. -/
theorem Spec.bind {x : Compile α} {f : α → Compile β} {R : β → Compiler → Prop}
    (hx : Spec x c P) (hf : ∀ a c', P a c' → Spec (f a) c' R) : Spec (x >>= f) c R := by
  unfold Spec at hx
  show match EStateM.bind x f c with | .ok a c' => R a c' | .error e _ => e.fault ≠ .corrupted
  unfold EStateM.bind
  split at hx
  · next a c₁ heq =>
    rw [heq]
    exact hf a c₁ hx
  · next e c₁ heq =>
    rw [heq]
    exact hx

/-- A specification is about the result alone. So a computation may be replaced
by one that does the same from another state. -/
theorem Spec.of_eq {x y : Compile α} (hy : Spec y c' Q) (h : x c = y c') : Spec x c Q := by
  rw [Spec, h]
  exact hy

/-- A computation whose first part succeeds goes on with the second part. This
is how the equations for successful runs are chained. -/
theorem bind_of_ok {x : Compile α} {a : α} (f : α → Compile β) (h : x c = .ok a c') :
    (x >>= f) c = f a c' := by
  show EStateM.bind x f c = f a c'
  rw [EStateM.bind, h]

/-! ### Operands -/

/-- An operand that fits into two bytes is accepted as it is. For each operation
there is a pair of lemmas from here on: what it leads to if it succeeds, and
when it does succeed. -/
theorem wide_of_lt {n : Nat} (fault : CompileFault) (span : Span) (h : n < 65536) :
    wide n fault span c = .ok (UInt16.ofNat n) c := by
  rw [wide, if_pos h]
  rfl

/-- An operand that fits into one byte is accepted as it is. -/
theorem narrow_of_lt {n : Nat} (fault : CompileFault) (span : Span) (h : n < 256) :
    narrow n fault span c = .ok (UInt8.ofNat n) c := by
  rw [narrow, if_pos h]
  rfl

/-- If an operand of two bytes is accepted, it fits and stands for its number,
and the compiler has not changed. -/
theorem spec_wide (n : Nat) (fault : CompileFault) (span : Span) (hf : fault ≠ .corrupted) :
    Spec (wide n fault span) c fun k c' => n < 65536 ∧ k = UInt16.ofNat n ∧ c' = c := by
  unfold wide
  split
  · next h => exact ⟨h, rfl, rfl⟩
  · exact Spec.fail span hf

/-- If an operand of one byte is accepted, it fits and stands for its number,
and the compiler has not changed. -/
theorem spec_narrow (n : Nat) (fault : CompileFault) (span : Span) (hf : fault ≠ .corrupted) :
    Spec (narrow n fault span) c fun k c' => n < 256 ∧ k = UInt8.ofNat n ∧ c' = c := by
  unfold narrow
  split
  · next h => exact ⟨h, rfl, rfl⟩
  · exact Spec.fail span hf

/-- Appending an instruction with a wide operand. -/
theorem spec_emit_wide (n : Nat) (fault : CompileFault) (span : Span) (f : UInt16 → Instruction)
    (hf : fault ≠ .corrupted) :
    Spec (do emit (f (← wide n fault span))) c fun _ c' =>
      n < 65536 ∧ c' = c.emit (f (UInt16.ofNat n)) := by
  refine (spec_wide n fault span hf).bind ?_
  rintro k c₁ ⟨hlt, rfl, rfl⟩
  exact ⟨hlt, rfl⟩

/-- Appending an instruction with a narrow operand. -/
theorem spec_emit_narrow (n : Nat) (fault : CompileFault) (span : Span) (f : UInt8 → Instruction)
    (hf : fault ≠ .corrupted) :
    Spec (do emit (f (← narrow n fault span))) c fun _ c' =>
      n < 256 ∧ c' = c.emit (f (UInt8.ofNat n)) := by
  refine (spec_narrow n fault span hf).bind ?_
  rintro k c₁ ⟨hlt, rfl, rfl⟩
  exact ⟨hlt, rfl⟩

/-! ### Constants and names -/

/-- A literal is where it was found, or at the end of the pool. -/
theorem literal_eq (v : Value) (span : Span) (c : Compiler) :
    literal v span c = match c.constants.findIdx? (sameLiteral v) with
      | some found => wide found .tooManyConstants span c
      | none => wide c.constants.size .tooManyConstants span (c.push v) := by
  have hget : (get : Compile Compiler) c = .ok c c := rfl
  rw [literal, bind_of_ok _ hget]
  cases c.constants.findIdx? (sameLiteral v) <;> rfl

/-- A literal has the index that `Setting.intern` gives it. Neither the code nor
the functions around are touched. -/
theorem spec_literal (v : Value) (span : Span) :
    Spec (literal v span) c fun k c' => c.setting.intern v = some (k, c'.setting) ∧
      c'.outer = c.outer ∧ c'.fragment = c.fragment := by
  unfold Setting.intern
  rw [show c.setting.constants = c.constants from rfl]
  cases hfind : c.constants.findIdx? (sameLiteral v) with
  | some found =>
    refine ((spec_wide (c := c) found .tooManyConstants span nofun).of_eq ?_).mono ?_
    · rw [literal_eq, hfind]
    · rintro k c₁ ⟨hlt, rfl, rfl⟩
      exact ⟨if_pos hlt, rfl, rfl⟩
  | none =>
    have hindex := spec_wide (c := c.push v) c.constants.size .tooManyConstants span nofun
    refine (hindex.of_eq ?_).mono ?_
    · rw [literal_eq, hfind]
    · rintro k c₁ ⟨hlt, rfl, rfl⟩
      exact ⟨if_pos hlt, rfl, rfl⟩

/-- A literal that `Setting.intern` has an index for gets this index. It has
none only if the pool is full. -/
theorem literal_of_intern {v : Value} {k : UInt16} {s : Setting} (span : Span)
    (h : c.setting.intern v = some (k, s)) :
    literal v span c = .ok k { c with constants := s.constants } := by
  rw [Setting.intern, show c.setting.constants = c.constants from rfl] at h
  rw [literal_eq]
  cases hfind : c.constants.findIdx? (sameLiteral v) with
  | some found =>
    rw [hfind] at h
    obtain ⟨hlt, heq⟩ := Option.ite_none_right_eq_some.1 h
    cases heq
    exact wide_of_lt _ _ hlt
  | none =>
    rw [hfind] at h
    obtain ⟨hlt, heq⟩ := Option.ite_none_right_eq_some.1 h
    cases heq
    exact wide_of_lt _ _ hlt

/-- A symbol is loaded by the instruction that `Symbol.load?` gives for it,
appended to the code. -/
theorem spec_load (symbol : Symbol) (span : Span) :
    Spec (load symbol span) c fun _ c' => ∃ i, symbol.load? = some i ∧ c' = c.emit i := by
  obtain ⟨name, storage, place⟩ := symbol
  cases storage with
  | global =>
    refine (spec_emit_wide place .tooManyGlobals span .getGlobal nofun).mono ?_
    exact fun _ _ ⟨hlt, heq⟩ => ⟨_, if_pos hlt, heq⟩
  | frame =>
    refine (spec_emit_narrow place (.slotOutOfRange name) span .getLocal nofun).mono ?_
    exact fun _ _ ⟨hlt, heq⟩ => ⟨_, if_pos hlt, heq⟩
  | builtin =>
    refine (spec_emit_narrow place (.slotOutOfRange name) span .getBuiltin nofun).mono ?_
    exact fun _ _ ⟨hlt, heq⟩ => ⟨_, if_pos hlt, heq⟩
  | captured =>
    refine (spec_emit_narrow place (.slotOutOfRange name) span .getFree nofun).mono ?_
    exact fun _ _ ⟨hlt, heq⟩ => ⟨_, if_pos hlt, heq⟩
  | itself => exact ⟨_, rfl, rfl⟩

/-- A symbol that has such an instruction can be loaded, since its operand
fits. -/
theorem load_of_load? {symbol : Symbol} {i : Instruction} (span : Span)
    (h : symbol.load? = some i) : load symbol span c = .ok () (c.emit i) := by
  obtain ⟨name, storage, place⟩ := symbol
  cases storage with
  | global =>
    obtain ⟨hlt, ⟨⟩⟩ := Option.ite_none_right_eq_some.1 h
    exact bind_of_ok _ (wide_of_lt _ _ hlt)
  | frame | builtin | captured =>
    obtain ⟨hlt, ⟨⟩⟩ := Option.ite_none_right_eq_some.1 h
    exact bind_of_ok _ (narrow_of_lt _ _ hlt)
  | itself =>
    cases h
    rfl

/-- Symbols are loaded one after the other, in the order in which they are
captured. -/
theorem spec_loadAll (span : Span) (symbols : List Symbol) :
    Spec (loadAll span symbols) c fun _ c' => ∃ is, Symbol.loads? symbols = some is ∧
      c' = { c with fragment := c.fragment.emitAll is } := by
  induction symbols generalizing c with
  | nil => exact ⟨[], rfl, rfl⟩
  | cons symbol rest ih =>
    refine (spec_load symbol span).bind ?_
    rintro _ c₁ ⟨i, hi, rfl⟩
    refine ih.mono ?_
    rintro _ c₂ ⟨is, his, rfl⟩
    exact ⟨i :: is, by rw [Symbol.loads?, hi, his], rfl⟩

/-- They can be loaded if each of them can. -/
theorem loadAll_of_loads? {symbols : List Symbol} {is : List Instruction} (span : Span)
    (h : Symbol.loads? symbols = some is) :
    loadAll span symbols c = .ok () { c with fragment := c.fragment.emitAll is } := by
  induction symbols generalizing c is with
  | nil =>
    cases h
    rfl
  | cons symbol rest ih =>
    rw [Symbol.loads?] at h
    split at h
    · next i js hi hjs =>
      cases h
      exact (bind_of_ok _ (load_of_load? span hi)).trans (ih hjs)
    · cases h

/-- A value is stored by the instruction that `Symbol.store?` gives for its
variable, appended to the code. -/
theorem spec_store (symbol : Symbol) (span : Span) :
    Spec (store symbol span) c fun _ c' => ∃ i, symbol.store? = some i ∧ c' = c.emit i := by
  obtain ⟨name, storage, place⟩ := symbol
  cases storage with
  | global =>
    refine (spec_emit_wide place .tooManyGlobals span .setGlobal nofun).mono ?_
    exact fun _ _ ⟨hlt, heq⟩ => ⟨_, if_pos hlt, heq⟩
  | frame | builtin | captured | itself =>
    refine (spec_emit_narrow place .tooManyLocals span .setLocal nofun).mono ?_
    exact fun _ _ ⟨hlt, heq⟩ => ⟨_, if_pos hlt, heq⟩

/-- A variable that has such an instruction can be stored into. -/
theorem store_of_store? {symbol : Symbol} {i : Instruction} (span : Span)
    (h : symbol.store? = some i) : store symbol span c = .ok () (c.emit i) := by
  obtain ⟨name, storage, place⟩ := symbol
  cases storage with
  | global =>
    obtain ⟨hlt, ⟨⟩⟩ := Option.ite_none_right_eq_some.1 h
    exact bind_of_ok _ (wide_of_lt _ _ hlt)
  | frame | builtin | captured | itself =>
    obtain ⟨hlt, ⟨⟩⟩ := Option.ite_none_right_eq_some.1 h
    exact bind_of_ok _ (narrow_of_lt _ _ hlt)

/-- A name is found as the table finds it, and the compiler goes on with the
table that results, captures included. -/
theorem spec_resolve (name : String) (span : Span) :
    Spec (resolve name span) c fun symbol c' => ∃ symbols,
      c.symbols.resolve name = some (symbol, symbols) ∧ c' = { c with symbols } := by
  unfold Spec resolve
  cases hfind : c.symbols.resolve name with
  | none => exact nofun
  | some found => exact ⟨found.2, rfl, rfl⟩

/-- A name that the table finds is found. It is an error of the program if there
is none. -/
theorem resolve_of_resolve {name : String} {symbol : Symbol} {symbols : SymbolTable} (span : Span)
    (h : c.symbols.resolve name = some (symbol, symbols)) :
    resolve name span c = .ok symbol { c with symbols } := by
  rw [resolve, h]

/-- Parameters are bound one after the other. This cannot fail: their number is
checked before. -/
theorem defineAll_eq_ok (params : List Ident) (c : Compiler) :
    defineAll params c = .ok () { c with symbols := c.symbols.defineAll params } := by
  induction params generalizing c with
  | nil => rfl
  | cons x rest ih => exact ih _

/-- A routine joins the pool at its end, and its place there is its index as
well as its identity. -/
theorem spec_addRoutine (code : Code) (locals params : Nat) (span : Span) :
    Spec (addRoutine code locals params span) c fun k c' =>
      c.constants.size < 65536 ∧ k = UInt16.ofNat c.constants.size ∧
      c' = c.push (.routine ⟨c.constants.size, code, locals, params⟩) :=
  spec_wide (c := c.push (.routine ⟨c.constants.size, code, locals, params⟩)) c.constants.size
    .tooManyConstants span nofun

/-- A routine can join the pool if there is room for one more constant. -/
theorem addRoutine_of_lt (code : Code) (locals params : Nat) (span : Span)
    (h : c.constants.size < 65536) :
    addRoutine code locals params span c = .ok (UInt16.ofNat c.constants.size)
      (c.push (.routine ⟨c.constants.size, code, locals, params⟩)) :=
  wide_of_lt (c := c.push (.routine ⟨c.constants.size, code, locals, params⟩))
    .tooManyConstants span h

/-! ### Jumps -/

/-- The compiler with the target of a waiting jump filled in. -/
def filled (c : Compiler) (label : Label) : Compiler :=
  { c with fragment := { c.fragment with
    code := c.fragment.code.patch label.operand (UInt16.ofNat c.fragment.code.size) } }

/-- A jump is given the end of the code as its target, if this fits into its
operand. The operand has been written, so there are two bytes to fill. -/
theorem spec_bind (label : Label) (span : Span)
    (h : label.operand + 2 ≤ c.fragment.code.size) :
    Spec (bind label span) c fun _ c' => c.fragment.code.size < 65536 ∧ c' = filled c label := by
  unfold Spec bind Fragment.bind Code.bind Code.maxTarget
  split_ifs with hfar hcut
  · exact nofun
  · omega
  · exact ⟨by omega, rfl⟩

/-- A jump can be given its target as long as the code is short enough. -/
theorem bind_of_lt {label : Label} (span : Span)
    (h : label.operand + 2 ≤ c.fragment.code.size) (hlt : c.fragment.code.size < 65536) :
    bind label span c = .ok () (filled c label) := by
  unfold bind Fragment.bind Code.bind Code.maxTarget
  rw [if_neg (by omega), if_neg (by omega)]
  rfl

end Compile

/-! ## Blocks are ended -/

namespace Fragment

/-- Code with one instruction more is the code before and then the bytes of the
instruction. -/
theorem toList_code_emit (f : Fragment) (i : Instruction) :
    (f.emit i).code.toList = f.code.toList ++ i.encode := Array.toList_appendList ..

/-- An instruction that has just been appended can be taken away, and the code
is what it was. This is what the end of a branch does to a discarded value. -/
theorem code_dropLast_emit (f : Fragment) (i : Instruction) :
    (f.emit i).dropLast.code = f.code := by
  show (f.code ++ i.encode).shrink f.code.size = f.code
  apply Array.ext'
  rw [Array.toList_shrink, Array.toList_appendList, Array.size_eq_length_toList,
    List.take_left]

/-- A value that has just been discarded can be returned instead: both
instructions are of one byte. -/
theorem replaceLast?_emit_pop (f : Fragment) :
    (f.emit .pop).replaceLast? .returnValue = some (f.emit .returnValue) := by
  have hcode : Code.replaceOp? (f.emit .pop).code f.code.size .returnValue
      = some (f.emit .returnValue).code := by
    have hlen : (f.emit .pop).code.size = f.code.size + 1 := by
      rw [Array.size_eq_length_toList, toList_code_emit, List.length_append]
      rfl
    rw [Code.replaceOp?, if_pos (by omega)]
    refine congrArg some (Array.ext' ?_)
    rw [Array.toList_setIfInBounds, toList_code_emit, toList_code_emit,
      Array.size_eq_length_toList, List.set_append_right _ _ (Nat.le_refl _), Nat.sub_self]
    rfl
  show (Code.replaceOp? (f.emit .pop).code f.code.size .returnValue).map _ = _
  rw [hcode]
  rfl

/-- A fragment that ends neither in a value to discard nor in a return. It is
given a return when its function is ended. -/
def Unfinished (f : Fragment) : Prop := f.lastIs .pop = false ∧ f.lastIs .returnValue = false

end Fragment

/-- Code that ends in a binding is unfinished: a function that has it for its
body still has to return something. -/
theorem Symbol.unfinished_of_store? {symbol : Symbol} {i : Instruction}
    (h : symbol.store? = some i) (f : Fragment) : (f.emit i).Unfinished := by
  obtain ⟨name, storage, place⟩ := symbol
  cases storage <;> obtain ⟨-, ⟨⟩⟩ := Option.ite_none_right_eq_some.1 h <;> exact ⟨rfl, rfl⟩

namespace Compile

/-- A value that would be discarded last is returned instead. -/
theorem finishBody_emit_pop (c : Compiler) (span : Span) :
    finishBody span (c.emit .pop) = .ok () (c.emit .returnValue) := by
  have hreturn : returnLast span (c.emit .pop) = .ok () (c.emit .returnValue) := by
    rw [returnLast, show (c.emit .pop).fragment = c.fragment.emit .pop from rfl,
      Fragment.replaceLast?_emit_pop]
    rfl
  exact bind_of_ok _ hreturn

/-- Code that ends in a return stays as it is. -/
theorem finishBody_emit_returnValue (c : Compiler) (span : Span) :
    finishBody span (c.emit .returnValue) = .ok () (c.emit .returnValue) := rfl

/-- All other code is given a return. -/
theorem finishBody_of_unfinished {c : Compiler} (h : c.fragment.Unfinished) (span : Span) :
    finishBody span c = .ok () (c.emit .returnNull) := by
  have hpop : lastIs .pop c = .ok false c := congrArg (EStateM.Result.ok · c) h.1
  have hreturn : lastIs .returnValue c = .ok false c := congrArg (EStateM.Result.ok · c) h.2
  rw [finishBody, bind_of_ok _ hpop]
  exact bind_of_ok _ hreturn

end Compile

/-- The last statement of a block decides how a branch ends, unless it is
alone. -/
theorem Compile.finishBranch_cons (s : Stmt) (rest : List Stmt) (span : Span) (f : Fragment)
    (h : rest = [] → s.isExpr = false) :
    finishBranch (.mk (s :: rest) span) f = finishBranch (.mk rest span) f := by
  unfold finishBranch Block.body
  cases rest with
  | nil =>
    rw [List.getLast?_singleton, List.getLast?_nil]
    cases s with
    | expr => cases h rfl
    | bind | ret => rfl
  | cons t rest => rw [List.getLast?_cons_cons]

/-! ## What has been written -/

namespace Compiler

/-- **What a compiler has become by writing instructions.** -/
structure Wrote (c : Compiler) (is : List Instruction) (c' : Compiler) : Prop where
  /-- No function around has changed. -/
  outer : c'.outer = c.outer
  /-- The code is the code before and then the instructions. -/
  code : c'.fragment.code.toList = c.fragment.code.toList ++ encodeAll is

variable {c c₁ c₂ c' : Compiler} {is js : List Instruction}

/-- Nothing has been written yet. -/
theorem Wrote.refl (c : Compiler) : c.Wrote [] c :=
  ⟨rfl, (List.append_nil _).symm⟩

/-- Names and constants may change without any code being written. -/
theorem wrote_nil (houter : c'.outer = c.outer) (hfragment : c'.fragment = c.fragment) :
    c.Wrote [] c' :=
  ⟨houter, by rw [hfragment, Instruction.encodeAll_nil, List.append_nil]⟩

/-- What has been written after something else has been written comes after
it. -/
theorem Wrote.trans (h₁ : c.Wrote is c₁) (h₂ : c₁.Wrote js c₂) : c.Wrote (is ++ js) c₂ :=
  ⟨h₂.outer.trans h₁.outer, by
    rw [h₂.code, h₁.code, Instruction.encodeAll_append, List.append_assoc]⟩

/-- One instruction has been written. -/
theorem wrote_emit (c : Compiler) (i : Instruction) : c.Wrote [i] (c.emit i) :=
  ⟨rfl, by
    show (c.fragment.emit i).code.toList = _
    rw [Fragment.toList_code_emit, Instruction.encodeAll_cons, Instruction.encodeAll_nil,
      List.append_nil]⟩

/-- One instruction has been written after others. -/
theorem Wrote.emit (h : c.Wrote is c₁) (i : Instruction) : c.Wrote (is ++ [i]) (c₁.emit i) :=
  h.trans (wrote_emit c₁ i)

/-- Several instructions have been written at once: those that load what a
closure captures. -/
theorem wrote_emitAll (c : Compiler) (is : List Instruction) :
    c.Wrote is { c with fragment := c.fragment.emitAll is } := by
  induction is generalizing c with
  | nil => exact Wrote.refl c
  | cons i is ih => exact (wrote_emit c i).trans (ih (c.emit i))

/-- The code has become longer by what has been written. Targets of jumps are
computed with this. -/
theorem Wrote.size (h : c.Wrote is c₁) :
    c₁.fragment.code.size = c.fragment.code.size + sizeAll is := by
  rw [Array.size_eq_length_toList, h.code, List.length_append, Instruction.length_encodeAll,
    Array.size_eq_length_toList]

/-- A jump that waited for its target has the target in the end. -/
theorem Wrote.filled {jump : UInt16 → Instruction} {m : UInt16} (op : UInt8)
    (hjump : ∀ n, (jump n).encode = op :: Instruction.wide n)
    (h : c.Wrote (is ++ jump m :: js) c₁) :
    c.Wrote (is ++ jump (UInt16.ofNat c₁.fragment.code.size) :: js)
      (Compile.filled c₁ (Code.labelAt (c.fragment.code.size + sizeAll is))) := by
  refine ⟨h.outer, ?_⟩
  have hcode := h.code
  rw [Instruction.encodeAll_append, Instruction.encodeAll_cons, hjump, ← List.append_assoc] at hcode
  have hpatch := Code.patch_hole (c.fragment.code.toList ++ encodeAll is) (encodeAll js) op m
    (UInt16.ofNat c₁.fragment.code.size)
  rw [← hcode, Array.toArray_toList, List.length_append, Instruction.length_encodeAll,
    ← Array.size_eq_length_toList] at hpatch
  rw [Instruction.encodeAll_append, Instruction.encodeAll_cons, hjump, ← List.append_assoc]
  exact congrArg Array.toList hpatch

/-- **A phrase has been laid out**: its instructions have been written, and the
names and constants are those after it. -/
def Laid (c : Compiler) (p : Phrase) (c' : Compiler) : Prop :=
  ∃ is, Writes c.setting c.fragment.code.size p is c'.setting ∧ c.Wrote is c'

/-- Phrases are compiled within one function, so the open functions and the
scopes are as many as before. -/
theorem Level.of_wrote (hl : c.Level) (h : c.Wrote is c') {p : Phrase} {start : Nat}
    (hw : Writes c.setting start p js c'.setting) : c'.Level := by
  rw [Level, h.outer, hl]
  exact hw.depth.symm

end Compiler

/-! ## Conditionals and function literals -/

namespace Compile

/-- A branch does not depend on where its block stands. -/
theorem branch_eq (block : Block) (span : Span) : branch block = branch (.mk block.body span) := by
  cases block
  rfl

/-- A missing branch is compiled like an empty one. -/
theorem expr_cond (test : Expr) (yes : Block) (no : Option Block) (span : Span) :
    expr (.cond test yes no span) = (do
      expr test
      let toNo ← emitJumpNotTruthy
      branch yes
      let toEnd ← emitJump
      bind toNo span
      branch (.mk (otherwise no) span)
      bind toEnd span) := by
  rw [expr]
  cases no with
  | none => rfl
  | some block => rw [otherwise, ← branch_eq block span]

/-- The compiler inside a function literal. -/
def opened (c : Compiler) (name : Option String) (params : List Ident) : Compiler :=
  { c with
    symbols := c.symbols.enterFunction name params
    fragment := .empty
    outer := c.fragment :: c.outer }

/-- A function can always be opened, and what the compiler looks like then is
known. A function with a name of its own has this name bound first. -/
theorem openFunction_eq_ok (name : Option String) (params : List Ident) (c : Compiler) :
    openFunction name params c = .ok () (opened c name params) := by
  cases name with
  | none =>
    exact defineAll_eq_ok params
      { c with symbols := c.symbols.enter, fragment := .empty, outer := c.fragment :: c.outer }
  | some name =>
    exact defineAll_eq_ok params
      { c with
        symbols := (c.symbols.enter.defineItself name).2
        fragment := .empty
        outer := c.fragment :: c.outer }

/-- A function literal is its body, compiled in a function that has been opened,
and then a closure. The number of its parameters is checked before anything
else. -/
theorem expr_function {name : Option String} {params : List Ident} (body : List Stmt)
    (place span : Span) (c : Compiler) (h : params.length ≤ 255) :
    expr (.function name params (.mk body place) span) c =
      (do statements body; finishBody span; buildClosure params.length span)
        (opened c name params) := by
  rw [expr, if_neg (Nat.not_lt.2 h)]
  exact bind_of_ok _ (openFunction_eq_ok name params c)

/-- A function with too many parameters is an error of the program, so there is
nothing to show. -/
theorem spec_expr_function_of_lt {name : Option String} {params : List Ident} (block : Block)
    (span : Span) {c : Compiler} {Q : Unit → Compiler → Prop} (h : 255 < params.length) :
    Spec (expr (.function name params block span)) c Q := by
  cases block
  rw [expr, if_pos h]
  have hfault : CompileFault.tooManyParameters ≠ .corrupted := nofun
  exact Spec.fail span hfault

/-- Opening a function opens a scope too, so functions and scopes are still as
many. -/
theorem level_opened {c : Compiler} (hl : c.Level) (name : Option String) (params : List Ident) :
    (opened c name params).Level := by
  show (c.fragment :: c.outer).length = (c.symbols.enterFunction name params).outer.length
  rw [SymbolTable.outer_enterFunction, List.length_cons, List.length_cons, hl]

/-- A branch is compiled statement by statement; only its last expression is
special. -/
theorem branch_cons {s : Stmt} {rest : List Stmt} (span : Span)
    (h : rest = [] → s.isExpr = false) :
    branch (.mk (s :: rest) span) = (do statement s; branch (.mk rest span)) := by
  rw [branch, statements, bind_assoc, branch]
  refine congrArg (statement s >>= ·) (funext fun _ => congrArg (statements rest >>= ·) ?_)
  funext _
  exact congrArg modifyFragment (funext fun f => finishBranch_cons s rest span f h)

/-- So is the body of a function, which is ended after its last statement. -/
theorem body_cons (s : Stmt) (rest : List Stmt) (span : Span) :
    (do statements (s :: rest); finishBody span) =
      (do statement s; statements rest; finishBody span) := by
  rw [statements, bind_assoc]

/-- A function that has been opened can be closed. What it gives is its code,
what it captures and the number of its variables. -/
theorem leaveFunction_eq_ok {c : Compiler} {fragment : Fragment} {outer : List Fragment}
    {symbols : SymbolTable} (span : Span) (hleave : c.symbols.leave? = some symbols)
    (houter : c.outer = fragment :: outer) :
    leaveFunction span c =
      .ok (c.fragment.code, c.symbols.inner.captures, c.symbols.inner.definitions)
        { c with symbols, fragment, outer } := by
  rw [leaveFunction, hleave, houter]

/-- The end of a function literal: the routine joins the pool, what it captures
is loaded where the literal stands, and the closure is made from both. This
completes the layout of the literal. -/
theorem spec_buildClosure {c c' : Compiler} {name : Option String} {params : List Ident}
    {block : Block} (span : Span) (hp : params.length ≤ 255)
    (h : (opened c name params).Laid (.body block.body) c') :
    Spec (buildClosure params.length span) c' fun _ c'' =>
      c.Laid (.expr (.function name params block span)) c'' := by
  obtain ⟨is, hw, houter, hcode⟩ := h
  have hcode' : c'.fragment.code = (encodeAll is).toArray := Array.ext' hcode
  -- There is a scope around the body, so leaving the function does not fail.
  have hlen : c'.symbols.outer.length = c.symbols.outer.length + 1 := by
    have := hw.depth
    rw [show (opened c name params).setting.symbols = c.symbols.enterFunction name params from rfl,
      SymbolTable.outer_enterFunction] at this
    exact this
  cases hleave : c'.symbols.outer with
  | nil => rw [hleave] at hlen; cases hlen
  | cons inner outer =>
    have hleave' : c'.symbols.leave? = some ⟨inner, outer⟩ := by rw [SymbolTable.leave?, hleave]
    have hclose := leaveFunction_eq_ok span hleave' houter
    unfold buildClosure
    refine (Spec.of_ok (Q := fun a c₁ => a = _ ∧ c₁ = _) hclose ⟨rfl, rfl⟩).bind ?_
    rintro _ _ ⟨rfl, rfl⟩
    refine (spec_narrow _ .tooManyCaptures span nofun).bind ?_
    rintro _ _ ⟨hcaptures, rfl, rfl⟩
    refine (spec_loadAll span _).bind ?_
    rintro _ _ ⟨loads, hloads, rfl⟩
    refine (spec_addRoutine _ _ _ span).bind ?_
    rintro _ _ ⟨hconstants, rfl, rfl⟩
    refine ⟨loads ++ [.makeClosure (UInt16.ofNat c'.constants.size)
      (UInt8.ofNat c'.symbols.inner.captures.size)], ?_, ?_⟩
    · have hlaid : Writes c.setting c.fragment.code.size (.expr (.function name params block span))
          _ _ := .function hp hw hleave' hcaptures hloads hconstants
      rw [← hcode'] at hlaid
      exact hlaid
    · have := (Compiler.wrote_emitAll c loads).emit (.makeClosure (UInt16.ofNat c'.constants.size)
        (UInt8.ofNat c'.symbols.inner.captures.size))
      exact ⟨this.outer, this.code⟩

/-! ## Compiled phrases have a layout -/

/-- A phrase that ends in an instruction of its own is laid out once this
instruction is appended. -/
theorem laid_emit {c c' : Compiler} {p : Phrase} {is : List Instruction} {i : Instruction}
    (hw : Writes c.setting c.fragment.code.size p (is ++ [i]) c'.setting) (h : c.Wrote is c') :
    c.Laid p (c'.emit i) := ⟨is ++ [i], hw, h.emit i⟩

/-- Two phrases one after the other, and an instruction that puts them
together. -/
theorem spec_two {c : Compiler} {x y : Compile Unit} {p q r : Phrase} {i : Instruction}
    (hl : c.Level) (hx : Spec x c fun _ c' => c.Laid p c')
    (hy : ∀ c₁ : Compiler, c₁.Level → Spec y c₁ fun _ c' => c₁.Laid q c')
    (rule : ∀ s₁ s₂ is js, Writes c.setting c.fragment.code.size p is s₁ →
      Writes s₁ (c.fragment.code.size + sizeAll is) q js s₂ →
      Writes c.setting c.fragment.code.size r (is ++ (js ++ [i])) s₂) :
    Spec (do x; y; emit i) c fun _ c' => c.Laid r c' := by
  refine hx.bind ?_
  rintro _ c₁ ⟨is, hw₁, hwrote₁⟩
  refine (hy c₁ (hl.of_wrote hwrote₁ hw₁)).bind ?_
  rintro _ c₂ ⟨js, hw₂, hwrote₂⟩
  rw [hwrote₁.size] at hw₂
  refine laid_emit ?_ (hwrote₁.trans hwrote₂)
  rw [List.append_assoc]
  exact rule c₁.setting c₂.setting is js hw₁ hw₂

/-- The target of a jump that waits for one. -/
def hole : UInt16 := UInt16.ofNat Code.maxTarget

/-- The compiler between the branches of a conditional: the first jump has its
target, the second waits for it. -/
def between (c₁ c₂ : Compiler) : Compiler :=
  filled (c₂.emit (.jump hole)) (Code.labelAt c₁.fragment.code.size)

section

variable {c c₁ c₂ c₃ : Compiler} {ts ys ns : List Instruction} {toNo toEnd : Nat}

/-- Where the other branch of a conditional begins: after the test, the first
branch and a jump behind each of them. -/
theorem size_emit_jump (htest : c.Wrote ts c₁) (hyes : (c₁.emit (.jumpNotTruthy hole)).Wrote ys c₂)
    (htoNo : toNo = c.fragment.code.size + sizeAll ts + 3 + sizeAll ys + 3) :
    (c₂.emit (.jump hole)).fragment.code.size = toNo := by
  rw [(Compiler.wrote_emit c₂ (.jump hole)).size, hyes.size, (Compiler.wrote_emit c₁ _).size,
    htest.size, htoNo]
  rfl

/-- What has been written between the branches. -/
theorem wrote_between (htest : c.Wrote ts c₁)
    (hyes : (c₁.emit (.jumpNotTruthy hole)).Wrote ys c₂)
    (htoNo : toNo = c.fragment.code.size + sizeAll ts + 3 + sizeAll ys + 3) :
    c.Wrote (ts ++ .jumpNotTruthy (UInt16.ofNat toNo) :: (ys ++ [.jump hole])) (between c₁ c₂) := by
  have hwrote :
      c.Wrote (ts ++ .jumpNotTruthy hole :: (ys ++ [.jump hole])) (c₂.emit (.jump hole)) :=
    htest.trans ((Compiler.wrote_emit c₁ _).trans (hyes.emit _))
  have hfilled := hwrote.filled Op.jumpNotTruthy.toByte fun _ => rfl
  rw [size_emit_jump htest hyes htoNo, ← htest.size] at hfilled
  exact hfilled

/-- The same once the first jump has been given its target, since this changes
no length. -/
theorem size_between (htest : c.Wrote ts c₁) (hyes : (c₁.emit (.jumpNotTruthy hole)).Wrote ys c₂)
    (htoNo : toNo = c.fragment.code.size + sizeAll ts + 3 + sizeAll ys + 3) :
    (between c₁ c₂).fragment.code.size = toNo := by
  rw [(wrote_between htest hyes htoNo).size, htoNo]
  simp only [Instruction.sizeAll_append, Instruction.sizeAll_cons, Instruction.sizeAll_nil,
    Instruction.size_jump, Instruction.size_jumpNotTruthy]
  omega

/-- **What has been written after both branches**: both jumps have their
targets. -/
theorem wrote_cond (htest : c.Wrote ts c₁) (hyes : (c₁.emit (.jumpNotTruthy hole)).Wrote ys c₂)
    (hno : (between c₁ c₂).Wrote ns c₃)
    (htoNo : toNo = c.fragment.code.size + sizeAll ts + 3 + sizeAll ys + 3)
    (htoEnd : toEnd = toNo + sizeAll ns) :
    c.Wrote (ts ++ .jumpNotTruthy (UInt16.ofNat toNo) :: (ys ++ .jump (UInt16.ofNat toEnd) :: ns))
      (filled c₃ (Code.labelAt c₂.fragment.code.size)) := by
  have hwrote := (wrote_between htest hyes htoNo).trans hno
  rw [← List.cons_append, ← List.append_assoc, List.append_assoc _ [_],
    List.singleton_append] at hwrote
  have hfilled := hwrote.filled Op.jump.toByte fun _ => rfl
  have hlabel : c.fragment.code.size + sizeAll (ts ++ .jumpNotTruthy (UInt16.ofNat toNo) :: ys) =
      c₂.fragment.code.size := by
    rw [hyes.size, (Compiler.wrote_emit c₁ _).size, htest.size]
    simp only [Instruction.sizeAll_append, Instruction.sizeAll_cons, Instruction.sizeAll_nil,
      Instruction.size_jumpNotTruthy]
    omega
  rw [hlabel, hno.size, size_between htest hyes htoNo, ← htoEnd, List.append_assoc,
    List.cons_append] at hfilled
  exact hfilled

end

/-- A conditional, put together from what is known of its parts. -/
theorem spec_cond {c : Compiler} {test : Expr} {yes : Block} {no : Option Block} {span : Span}
    (hl : c.Level) (htest : Spec (expr test) c fun _ c' => c.Laid (.expr test) c')
    (hyes : ∀ c₁ : Compiler, c₁.Level →
      Spec (branch yes) c₁ fun _ c' => c₁.Laid (.branch yes.body) c')
    (hno : ∀ c₁ : Compiler, c₁.Level →
      Spec (branch (.mk (otherwise no) span)) c₁ fun _ c' => c₁.Laid (.branch (otherwise no)) c') :
    Spec (expr (.cond test yes no span)) c fun _ c' =>
      c.Laid (.expr (.cond test yes no span)) c' := by
  rw [expr_cond]
  refine htest.bind ?_
  rintro _ c₁ ⟨ts, hw₁, hwrote₁⟩
  have hl₁ := hl.of_wrote hwrote₁ hw₁
  refine Spec.bind (P := fun label c' => label = Code.labelAt c₁.fragment.code.size ∧
    c' = c₁.emit (.jumpNotTruthy hole)) ⟨rfl, rfl⟩ ?_
  rintro _ _ ⟨rfl, rfl⟩
  refine (hyes (c₁.emit _) hl₁).bind ?_
  rintro _ c₂ ⟨ys, hw₂, hwrote₂⟩
  have hl₂ := Compiler.Level.of_wrote (c := c₁.emit _) hl₁ hwrote₂ hw₂
  refine Spec.bind (P := fun label c' => label = Code.labelAt c₂.fragment.code.size ∧
    c' = c₂.emit (.jump hole)) ⟨rfl, rfl⟩ ?_
  rintro _ _ ⟨rfl, rfl⟩
  have hsize₂ := hwrote₂.size
  rw [(Compiler.wrote_emit c₁ _).size] at hw₂ hsize₂
  have hsize := size_emit_jump hwrote₁ hwrote₂ rfl
  -- The first jump lies before the end of the code, and gets the end as its
  -- target.
  have hlabel₁ : c₁.fragment.code.size + 1 + 2 ≤ (c₂.emit (.jump hole)).fragment.code.size := by
    rw [hsize, hwrote₁.size]
    omega
  refine (spec_bind _ span hlabel₁).bind ?_
  rintro _ _ ⟨hnear, rfl⟩
  refine (hno (between c₁ c₂) hl₂).bind ?_
  rintro _ c₃ ⟨ns, hw₃, hwrote₃⟩
  have hsize₃ := hwrote₃.size
  rw [size_between hwrote₁ hwrote₂ rfl] at hw₃ hsize₃
  have hlabel₂ : c₂.fragment.code.size + 1 + 2 ≤ c₃.fragment.code.size := by
    have hjump : (c₂.emit (.jump hole)).fragment.code.size = c₂.fragment.code.size + 3 :=
      (Compiler.wrote_emit c₂ (.jump hole)).size
    omega
  refine (spec_bind _ span hlabel₂).mono ?_
  rintro _ _ ⟨hfar, rfl⟩
  refine ⟨_, ?_, wrote_cond hwrote₁ hwrote₂ hwrote₃ rfl rfl⟩
  rw [hwrote₁.size] at hw₂
  exact .cond hw₁ hw₂ hw₃ rfl (hsize ▸ hnear) rfl (hsize₃ ▸ hfar)

/-- A branch without statements is worth null. A branch that is missing is
compiled in this way as well. -/
theorem spec_branch_nil (span : Span) (c : Compiler) :
    Spec (branch (.mk [] span)) c fun _ c' => c.Laid (.branch []) c' := by
  rw [branch, statements]
  exact ⟨_, .branchNil, Compiler.wrote_emit c .pushNull⟩

/-- A statement that returns a value is only allowed in functions. What it leads
to is stated without `Laid`, since the end of a body needs to know what was
there before the last instruction. -/
theorem spec_ret {c : Compiler} {e : Expr} (span : Span) (hl : c.Level)
    (he : Spec (expr e) c fun _ c' => c.Laid (.expr e) c') :
    Spec (statement (.ret e span)) c fun _ c' => c.symbols.isGlobal = false ∧
      ∃ c₁ is, Writes c.setting c.fragment.code.size (.expr e) is c₁.setting ∧
        c.Wrote is c₁ ∧ c' = c₁.emit .returnValue := by
  rw [statement]
  show Spec (do
    if c.outer.isEmpty then fail .returnOutsideFunction span
    expr e
    emit .returnValue) c _
  split
  · exact Spec.bind (P := fun _ _ => False) (Spec.fail span nofun) nofun
  · next hopen =>
    refine Spec.bind he ?_
    rintro _ c₁ ⟨is, hw, hwrote⟩
    refine ⟨?_, c₁, is, hw, hwrote, rfl⟩
    have hlen := hl
    unfold Compiler.Level at hlen
    rw [SymbolTable.isGlobal]
    cases hc : c.outer with
    | nil => rw [hc] at hopen; cases hopen rfl
    | cons f rest =>
      rw [hc] at hlen
      cases hs : c.symbols.outer with
      | nil => rw [hs] at hlen; cases hlen
      | cons => rfl

/-- The compiler with a name bound to a new variable. -/
def defined (c : Compiler) (name : String) : Compiler :=
  { c with symbols := (c.symbols.define name).2 }

mutual

/-- **An expression is laid out** as `Writes` says, or it is an error of the
program. The induction is on the syntax, and follows the functions of the
compiler. -/
theorem spec_expr (e : Expr) (c : Compiler) (hl : c.Level) :
    Spec (expr e) c fun _ c' => c.Laid (.expr e) c' := by
  match e with
  | .ident name span =>
    rw [expr]
    refine (spec_resolve name span).bind ?_
    rintro symbol _ ⟨symbols, hresolve, rfl⟩
    refine (spec_load symbol span).mono ?_
    rintro _ _ ⟨i, hload, rfl⟩
    have hwrote : c.Wrote [] { c with symbols } := Compiler.wrote_nil rfl rfl
    exact ⟨[i], .ident hresolve hload, hwrote.emit i⟩
  | .number n span =>
    rw [expr]
    split
    · next hfinite =>
      refine (spec_literal (.number n) span).bind ?_
      rintro k c₁ ⟨hintern, houter, hfragment⟩
      exact ⟨[.constant k], .number hfinite hintern, (Compiler.wrote_nil houter hfragment).emit _⟩
    · have hfault : CompileFault.malformedNumber n ≠ .corrupted := nofun
      exact Spec.fail span hfault
  | .boolean b span =>
    cases b <;> rw [expr] <;> exact ⟨_, .boolean, Compiler.wrote_emit c _⟩
  | .string t span =>
    rw [expr]
    refine (spec_literal (.string t) span).bind ?_
    rintro k c₁ ⟨hintern, houter, hfragment⟩
    exact ⟨[.constant k], .string hintern, (Compiler.wrote_nil houter hfragment).emit _⟩
  | .unary op operand span =>
    rw [expr]
    refine (spec_expr operand c hl).bind ?_
    rintro _ c₁ ⟨is, hw, hwrote⟩
    exact laid_emit (.unary hw) hwrote
  | .binary op left right span =>
    by_cases hop : op = .less
    · subst hop
      rw [expr]
      exact spec_two hl (spec_expr right c hl) (spec_expr left) fun _ _ _ _ => .less
    · rw [expr]
      · exact spec_two hl (spec_expr left c hl) (spec_expr right) fun _ _ _ _ => .binary hop
      · exact hop
  | .cond test yes no span =>
    refine spec_cond hl (spec_expr test c hl) ?_ ?_
    · intro c₁ hl₁
      match yes with
      | .mk body place => exact spec_branch body place c₁ hl₁
    · intro c₁ hl₁
      match no with
      -- A branch that is missing is laid out as an empty one.
      | none => exact spec_branch_nil span c₁
      | some (.mk body place) => exact spec_branch body span c₁ hl₁
  | .function name params (.mk body place) span =>
    by_cases hp : 255 < params.length
    · exact spec_expr_function_of_lt _ span hp
    · have hp' := Nat.not_lt.1 hp
      -- The body is compiled in a fragment of its own, and the closure is built
      -- when that is closed.
      refine Spec.of_eq ?_ (expr_function body place span c hp')
      rw [← bind_assoc]
      refine (spec_body body span (opened c name params) (level_opened hl name params) ?_).bind ?_
      · exact fun _ => ⟨rfl, rfl⟩
      · exact fun _ c₁ hlaid => spec_buildClosure span hp' hlaid
  | .call callee args span =>
    rw [expr]
    refine (spec_expr callee c hl).bind ?_
    rintro _ c₁ ⟨is, hw₁, hwrote₁⟩
    refine (spec_exprs args c₁ (hl.of_wrote hwrote₁ hw₁)).bind ?_
    rintro _ c₂ ⟨js, hw₂, hwrote₂⟩
    rw [hwrote₁.size] at hw₂
    refine (spec_emit_narrow _ .tooManyArguments span .call nofun).mono ?_
    rintro _ _ ⟨hlt, rfl⟩
    refine laid_emit ?_ (hwrote₁.trans hwrote₂)
    rw [List.append_assoc]
    exact .call hw₁ hw₂ hlt
  | .array items span =>
    rw [expr]
    refine (spec_exprs items c hl).bind ?_
    rintro _ c₁ ⟨is, hw, hwrote⟩
    refine (spec_emit_wide _ .arrayTooLong span .makeArray nofun).mono ?_
    rintro _ _ ⟨hlt, rfl⟩
    exact laid_emit (.array hw hlt) hwrote
  | .index container key span =>
    rw [expr]
    exact spec_two hl (spec_expr container c hl) (spec_expr key) fun _ _ _ _ => .index
  | .map entries span =>
    rw [expr]
    refine (spec_pairs entries c hl).bind ?_
    rintro _ c₁ ⟨is, hw, hwrote⟩
    refine (spec_emit_wide _ .mapTooLong span .makeMap nofun).mono ?_
    rintro _ _ ⟨hlt, rfl⟩
    exact laid_emit (.map hw hlt) hwrote

/-- Items and arguments are laid out one after the other. -/
theorem spec_exprs (es : List Expr) (c : Compiler) (hl : c.Level) :
    Spec (exprs es) c fun _ c' => c.Laid (.exprs es) c' := by
  match es with
  | [] =>
    rw [exprs]
    exact ⟨[], .exprsNil, .refl c⟩
  | e :: rest =>
    rw [exprs]
    refine (spec_expr e c hl).bind ?_
    rintro _ c₁ ⟨is, hw₁, hwrote₁⟩
    refine (spec_exprs rest c₁ (hl.of_wrote hwrote₁ hw₁)).mono ?_
    rintro _ c₂ ⟨js, hw₂, hwrote₂⟩
    rw [hwrote₁.size] at hw₂
    exact ⟨is ++ js, .exprsCons hw₁ hw₂, hwrote₁.trans hwrote₂⟩

/-- So are keys and values, each key before its value. -/
theorem spec_pairs (entries : List (Expr × Expr)) (c : Compiler) (hl : c.Level) :
    Spec (pairs entries) c fun _ c' => c.Laid (.pairs entries) c' := by
  match entries with
  | [] =>
    rw [pairs]
    exact ⟨[], .pairsNil, .refl c⟩
  | (key, value) :: rest =>
    rw [pairs]
    refine (spec_expr key c hl).bind ?_
    rintro _ c₁ ⟨is, hw₁, hwrote₁⟩
    have hl₁ := hl.of_wrote hwrote₁ hw₁
    refine (spec_expr value c₁ hl₁).bind ?_
    rintro _ c₂ ⟨js, hw₂, hwrote₂⟩
    refine (spec_pairs rest c₂ (hl₁.of_wrote hwrote₂ hw₂)).mono ?_
    rintro _ c₃ ⟨ks, hw₃, hwrote₃⟩
    rw [hwrote₂.size] at hw₃
    rw [hwrote₁.size] at hw₂ hw₃
    exact ⟨is ++ (js ++ ks), .pairsCons hw₁ hw₂ hw₃, hwrote₁.trans (hwrote₂.trans hwrote₃)⟩

/-- The statements of a branch are laid out like others, and what remains to be
done at its end depends on the last of them. -/
theorem spec_branch (body : List Stmt) (span : Span) (c : Compiler) (hl : c.Level) :
    Spec (branch (.mk body span)) c fun _ c' => c.Laid (.branch body) c' := by
  match body with
  | [] => exact spec_branch_nil span c
  | s :: rest =>
    by_cases hlast : rest = [] → s.isExpr = false
    · rw [branch_cons span hlast]
      refine (spec_statement s c hl).bind ?_
      rintro _ c₁ ⟨⟨is, hw₁, hwrote₁⟩, -⟩
      refine (spec_branch rest span c₁ (hl.of_wrote hwrote₁ hw₁)).mono ?_
      rintro _ c₂ ⟨js, hw₂, hwrote₂⟩
      rw [hwrote₁.size] at hw₂
      exact ⟨is ++ js, .branchCons hlast hw₁ hw₂, hwrote₁.trans hwrote₂⟩
    · obtain ⟨rfl, hs⟩ := Classical.not_imp.1 hlast
      match s with
      | .bind .. | .ret .. => cases hs rfl
      | .expr e place =>
        rw [branch, statements, statement, bind_assoc, bind_assoc]
        refine (spec_expr e c hl).bind ?_
        rintro _ c₁ ⟨is, hw, hwrote⟩
        refine ⟨is, .branchExpr hw, hwrote.outer, ?_⟩
        show (c₁.fragment.emit .pop).dropLast.code.toList = _
        rw [Fragment.code_dropLast_emit, hwrote.code]

/-- The statements of a function are laid out like others, and its code is ended
by a return. Where there are no statements the code has to be unfinished
already, so that a return is added. -/
theorem spec_body (body : List Stmt) (span : Span) (c : Compiler) (hl : c.Level)
    (hstart : body = [] → c.fragment.Unfinished) :
    Spec (do statements body; finishBody span) c fun _ c' => c.Laid (.body body) c' := by
  match body with
  | [] =>
    rw [statements, pure_bind]
    exact .of_ok (finishBody_of_unfinished (hstart rfl) span)
      ⟨_, .bodyNil, Compiler.wrote_emit c .returnNull⟩
  | s :: rest =>
    rw [body_cons]
    by_cases hlast : rest = [] → s.isBind = true
    · refine (spec_statement s c hl).bind ?_
      rintro _ c₁ ⟨⟨is, hw₁, hwrote₁⟩, hbind⟩
      refine (spec_body rest span c₁ (hl.of_wrote hwrote₁ hw₁) fun h => hbind (hlast h)).mono ?_
      rintro _ c₂ ⟨js, hw₂, hwrote₂⟩
      rw [hwrote₁.size] at hw₂
      exact ⟨is ++ js, .bodyCons hlast hw₁ hw₂, hwrote₁.trans hwrote₂⟩
    · obtain ⟨rfl, hs⟩ := Classical.not_imp.1 hlast
      rw [statements, pure_bind]
      match s with
      | .bind .. => cases hs rfl
      | .expr e place =>
        rw [statement, bind_assoc]
        refine (spec_expr e c hl).bind ?_
        rintro _ c₁ ⟨is, hw, hwrote⟩
        exact .of_ok (finishBody_emit_pop c₁ span) (laid_emit (.bodyExpr hw) hwrote)
      | .ret e place =>
        refine Spec.bind (spec_ret place hl (spec_expr e c hl)) ?_
        rintro _ _ ⟨hdeep, c₁, is, hw, hwrote, rfl⟩
        exact .of_ok (finishBody_emit_returnValue c₁ span) (laid_emit (.bodyRet hdeep hw) hwrote)

/-- A statement is laid out. What the end of a body has to know of it is whether
it was a binding, for then there is nothing to return. -/
theorem spec_statement (s : Stmt) (c : Compiler) (hl : c.Level) :
    Spec (statement s) c fun _ c' =>
      c.Laid (.stmt s) c' ∧ (s.isBind = true → c'.fragment.Unfinished) := by
  match s with
  | .expr e span =>
    rw [statement]
    refine (spec_expr e c hl).bind ?_
    rintro _ c₁ ⟨is, hw, hwrote⟩
    exact ⟨laid_emit (.stmtExpr hw) hwrote, nofun⟩
  | .bind name e span =>
    rw [statement]
    refine (spec_expr e c hl).bind ?_
    rintro _ c₁ ⟨is, hw, hwrote⟩
    refine (spec_store (c := defined c₁ name.name) (c₁.symbols.define name.name).1
      name.span).mono ?_
    rintro _ _ ⟨i, hstore, rfl⟩
    have hwrote' : c₁.Wrote [] (defined c₁ name.name) := Compiler.wrote_nil rfl rfl
    refine ⟨⟨is ++ [i], .stmtBind hw hstore, hwrote.trans (hwrote'.emit i)⟩, fun _ => ?_⟩
    exact Symbol.unfinished_of_store? hstore _
  | .ret e span =>
    refine (spec_ret span hl (spec_expr e c hl)).mono ?_
    rintro _ _ ⟨hdeep, c₁, is, hw, hwrote, rfl⟩
    exact ⟨laid_emit (.stmtRet hdeep hw) hwrote, nofun⟩

end

/-- A program is laid out statement by statement. -/
theorem spec_statements (program : List Stmt) (c : Compiler) (hl : c.Level) :
    Spec (statements program) c fun _ c' => c.Laid (.stmts program) c' := by
  induction program generalizing c with
  | nil =>
    rw [statements]
    exact ⟨[], .stmtsNil, .refl c⟩
  | cons x rest ih =>
    rw [statements]
    refine (spec_statement x c hl).bind ?_
    rintro _ c₁ ⟨⟨is, hw₁, hwrote₁⟩, -⟩
    refine (ih c₁ (hl.of_wrote hwrote₁ hw₁)).mono ?_
    rintro _ c₂ ⟨js, hw₂, hwrote₂⟩
    rw [hwrote₁.size] at hw₂
    exact ⟨is ++ js, .stmtsCons hw₁ hw₂, hwrote₁.trans hwrote₂⟩

end Compile

namespace Compiler

variable {t : SymbolTable} {constants : Array Value} {program : List Stmt} {c : Compiler}

/-- A compiler that starts at the top level has no function open. -/
theorem level_withState (h : t.outer = []) : (withState t constants).Level := by
  rw [Level, show (withState t constants).symbols.outer = t.outer from rfl, h]
  rfl

/-- A program that was compiled has a layout, which was appended to the code. -/
theorem Level.laid (hl : c.Level) {c' : Compiler} (h : c.compile program = (.ok (), c')) :
    c.Laid (.stmts program) c' := by
  have hspec := Compile.spec_statements program c hl
  unfold compile at h
  split at h
  · next heq =>
    cases h
    exact hspec.of_eq_ok heq
  · cases h

/-- **A program that was compiled has a layout**, which is its code. -/
theorem writes_of_compile (h : (withState t constants).compile program = (.ok (), c))
    (ht : t.outer = []) : ∃ is, Writes ⟨t, constants⟩ 0 (.stmts program) is c.setting ∧
      c.bytecode = ⟨(encodeAll is).toArray, c.constants⟩ := by
  obtain ⟨is, hw, hwrote⟩ := (level_withState ht).laid h
  have hcode : c.fragment.code = (encodeAll is).toArray := Array.ext' hwrote.code
  exact ⟨is, hw, by rw [bytecode, hcode]⟩

/-- A program that cannot be compiled is at fault itself. -/
theorem compile_fault {e : CompileError}
    (h : (withState t constants).compile program = (.error e, c)) (ht : t.outer = []) :
    e.fault ≠ .corrupted := by
  have hlevel : (withState t constants).Level := level_withState ht
  have hspec := Compile.spec_statements program _ hlevel
  unfold compile at h
  split at h
  · cases h
  · next heq =>
    cases h
    rw [Compile.Spec, heq] at hspec
    exact hspec

end Compiler

end StackScript
