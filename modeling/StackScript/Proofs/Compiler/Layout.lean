import StackScript.Compiler.Basic
import StackScript.Proofs.Code.Encoding

/-!
# The layout of compiled code

The compiler writes code in one pass: it leaves holes for jumps and fills them
later, and it takes back the instruction that discards a value when the value
turns out to be wanted. What stands in the code at the end can be said without
any of this. `Writes` is that description: for each construct, the instructions
its code consists of, the jumps with the targets they have in the end.

A construct is a `Phrase`. There are phrases for lists of expressions and of
statements, and two for a list of statements that is a block: a **branch**
leaves the value of the block on the stack, a **body** returns it. All of them
are cases of one relation, so that a property of compiled code is proved by one
induction.

The relation is between the names and constants before a phrase and after it. It
holds exactly when the phrase can be compiled: the limits on operands are
premises of its rules.
-/

namespace StackScript

/-- **A piece of a program that is compiled as one.** -/
inductive Phrase where
  /-- An expression, which leaves its value. -/
  | expr (e : Expr)
  /-- Expressions, which leave their values in order. -/
  | exprs (es : List Expr)
  /-- Keys and values, which are left in order. -/
  | pairs (entries : List (Expr × Expr))
  /-- A block, which leaves its value. -/
  | branch (block : List Stmt)
  /-- A block, which returns its value. -/
  | body (block : List Stmt)
  /-- A statement, which leaves nothing. -/
  | stmt (s : Stmt)
  /-- Statements, which leave nothing. -/
  | stmts (ss : List Stmt)

/-- **What compiling changes besides code**: the names that can be seen and the
constants. -/
structure Setting where
  /-- The names. -/
  symbols : SymbolTable
  /-- The pool of constants. -/
  constants : Array Value

/-- The names and constants of a compiler. -/
def Compiler.setting (c : Compiler) : Setting := ⟨c.symbols, c.constants⟩

/-! ## Constants and names -/

/-- The index of a literal in the pool, and the setting when it is there. -/
def Setting.intern (c : Setting) (v : Value) : Option (UInt16 × Setting) :=
  match c.constants.findIdx? (Compile.sameLiteral v) with
  | some index => if index < 65536 then some (UInt16.ofNat index, c) else none
  | none =>
    if c.constants.size < 65536 then
      some (UInt16.ofNat c.constants.size, { c with constants := c.constants.push v })
    else none

namespace SymbolTable

/-- The table with names bound to new variables, in order. -/
def defineAll (t : SymbolTable) : List Ident → SymbolTable
  | [] => t
  | x :: rest => (t.define x.name).2.defineAll rest

/-- **The table at the beginning of a function's body**: the name of the
function is bound before the parameters, so that a parameter of that name hides
it. -/
def enterFunction (t : SymbolTable) (name : Option String) (params : List Ident) : SymbolTable :=
  match name with
  | some name => (t.enter.defineItself name).2.defineAll params
  | none => t.enter.defineAll params

/-- Parameters are names of the function itself, so the scopes around it stay as
they are. -/
theorem outer_defineAll (t : SymbolTable) (params : List Ident) :
    (t.defineAll params).outer = t.outer := by
  induction params generalizing t with
  | nil => rfl
  | cons x rest ih => exact ih _

/-- A function has the scope that it stands in as the first of the scopes around
it, whatever its own names are. -/
theorem outer_enterFunction (t : SymbolTable) (name : Option String) (params : List Ident) :
    (t.enterFunction name params).outer = t.inner :: t.outer := by
  cases name <;> exact outer_defineAll _ _

/-- Leaving a function goes back to the first of the scopes around it. With
`outer_enterFunction` it says that opening and closing go together. -/
theorem outer_of_leave? {t t' : SymbolTable} (h : t.leave? = some t') :
    t.outer = t'.inner :: t'.outer := by
  unfold leave? at h
  split at h
  · cases h
  · next heq => cases h; exact heq

end SymbolTable

namespace Symbol

/-- The instruction that pushes the value of a symbol, if its index fits. -/
def load? (symbol : Symbol) : Option Instruction :=
  match symbol.storage with
  | .global => if symbol.index < 65536 then some (.getGlobal (UInt16.ofNat symbol.index)) else none
  | .frame => if symbol.index < 256 then some (.getLocal (UInt8.ofNat symbol.index)) else none
  | .builtin => if symbol.index < 256 then some (.getBuiltin (UInt8.ofNat symbol.index)) else none
  | .captured => if symbol.index < 256 then some (.getFree (UInt8.ofNat symbol.index)) else none
  | .itself => some .currentClosure

/-- The instruction that pops a value into the variable of a symbol, if its
index fits. -/
def store? (symbol : Symbol) : Option Instruction :=
  match symbol.storage with
  | .global => if symbol.index < 65536 then some (.setGlobal (UInt16.ofNat symbol.index)) else none
  | _ => if symbol.index < 256 then some (.setLocal (UInt8.ofNat symbol.index)) else none

/-- The instructions that push the values of symbols, if their indices fit. -/
def loads? : List Symbol → Option (List Instruction)
  | [] => some []
  | symbol :: rest =>
    match symbol.load?, loads? rest with
    | some i, some is => some (i :: is)
    | _, _ => none

end Symbol

/-! ## Blocks -/

/-- The statements of the other branch of a conditional: none, if it is
missing. -/
def otherwise : Option Block → List Stmt
  | some block => block.body
  | none => []

/-- Whether a statement evaluates an expression. -/
def Stmt.isExpr : Stmt → Bool
  | .expr .. => true
  | _ => false

/-- Whether a statement binds a name. -/
def Stmt.isBind : Stmt → Bool
  | .bind .. => true
  | _ => false

/-- Whether a program ends in an expression, whose value is then the value of
the program. -/
def endsInExpr (program : List Stmt) : Bool :=
  match program.getLast? with
  | some x => x.isExpr
  | none => false

/-- Whether statements end in an expression is a matter of the last one. So it
can be decided after the first statement has been compiled. -/
theorem endsInExpr_cons {x : Stmt} {rest : List Stmt} (h : rest = [] → x.isExpr = false) :
    endsInExpr (x :: rest) = endsInExpr rest := by
  cases rest with
  | nil => exact h rfl
  | cons => rw [endsInExpr, endsInExpr, List.getLast?_cons_cons]

/-! ## The relation -/

open Instruction Compile in
/-- **The instructions of a phrase** that begins at an offset, from one setting
to the next. -/
inductive Writes : Setting → Nat → Phrase → List Instruction → Setting → Prop where
  | ident {c start name span symbol symbols i} :
      c.symbols.resolve name = some (symbol, symbols) → symbol.load? = some i →
      Writes c start (.expr (.ident name span)) [i] { c with symbols }
  | number {c c' start n span index} :
      n.isFinite = true → c.intern (.number n) = some (index, c') →
      Writes c start (.expr (.number n span)) [.constant index] c'
  | boolean {c start b span} :
      Writes c start (.expr (.boolean b span)) [if b then .pushTrue else .pushFalse] c
  | string {c c' start s span index} :
      c.intern (.string s) = some (index, c') →
      Writes c start (.expr (.string s span)) [.constant index] c'
  | unary {c c' start op e span is} :
      Writes c start (.expr e) is c' →
      Writes c start (.expr (.unary op e span)) (is ++ [unaryInstruction op]) c'
  | less {c c₁ c₂ start left right span is js} :
      Writes c start (.expr right) is c₁ →
      Writes c₁ (start + sizeAll is) (.expr left) js c₂ →
      Writes c start (.expr (.binary .less left right span)) (is ++ (js ++ [.greaterThan])) c₂
  | binary {c c₁ c₂ start op left right span is js} :
      op ≠ .less →
      Writes c start (.expr left) is c₁ →
      Writes c₁ (start + sizeAll is) (.expr right) js c₂ →
      Writes c start (.expr (.binary op left right span)) (is ++ (js ++ [binaryInstruction op])) c₂
  | cond {c c₁ c₂ c₃ start test yes no span ts ys ns} {toNo toEnd : Nat} :
      Writes c start (.expr test) ts c₁ →
      Writes c₁ (start + sizeAll ts + 3) (.branch (Block.body yes)) ys c₂ →
      Writes c₂ toNo (.branch (otherwise no)) ns c₃ →
      toNo = start + sizeAll ts + 3 + sizeAll ys + 3 → toNo < 65536 →
      toEnd = toNo + sizeAll ns → toEnd < 65536 →
      Writes c start (.expr (.cond test yes no span))
        (ts ++ (.jumpNotTruthy (UInt16.ofNat toNo) :: (ys ++ .jump (UInt16.ofNat toEnd) :: ns))) c₃
  | function {c c' start name params block span is loads symbols} :
      params.length ≤ 255 →
      Writes { c with symbols := c.symbols.enterFunction name params } 0
        (.body (Block.body block)) is c' →
      c'.symbols.leave? = some symbols →
      c'.symbols.inner.captures.size < 256 →
      Symbol.loads? c'.symbols.inner.captures.toList = some loads →
      c'.constants.size < 65536 →
      Writes c start (.expr (.function name params block span))
        (loads ++ [.makeClosure (UInt16.ofNat c'.constants.size)
          (UInt8.ofNat c'.symbols.inner.captures.size)])
        ⟨symbols, c'.constants.push (.routine ⟨c'.constants.size, (encodeAll is).toArray,
          c'.symbols.inner.definitions, params.length⟩)⟩
  | call {c c₁ c₂ start callee args span is js} :
      Writes c start (.expr callee) is c₁ →
      Writes c₁ (start + sizeAll is) (.exprs args) js c₂ →
      args.length < 256 →
      Writes c start (.expr (.call callee args span))
        (is ++ (js ++ [.call (UInt8.ofNat args.length)])) c₂
  | array {c c' start items span is} :
      Writes c start (.exprs items) is c' → items.length < 65536 →
      Writes c start (.expr (.array items span))
        (is ++ [.makeArray (UInt16.ofNat items.length)]) c'
  | index {c c₁ c₂ start container key span is js} :
      Writes c start (.expr container) is c₁ →
      Writes c₁ (start + sizeAll is) (.expr key) js c₂ →
      Writes c start (.expr (.index container key span)) (is ++ (js ++ [.index])) c₂
  | map {c c' start entries span is} :
      Writes c start (.pairs entries) is c' → 2 * entries.length < 65536 →
      Writes c start (.expr (.map entries span))
        (is ++ [.makeMap (UInt16.ofNat (2 * entries.length))]) c'
  | exprsNil {c start} : Writes c start (.exprs []) [] c
  | exprsCons {c c₁ c₂ start e es is js} :
      Writes c start (.expr e) is c₁ →
      Writes c₁ (start + sizeAll is) (.exprs es) js c₂ →
      Writes c start (.exprs (e :: es)) (is ++ js) c₂
  | pairsNil {c start} : Writes c start (.pairs []) [] c
  | pairsCons {c c₁ c₂ c₃ start key value rest is js ks} :
      Writes c start (.expr key) is c₁ →
      Writes c₁ (start + sizeAll is) (.expr value) js c₂ →
      Writes c₂ (start + sizeAll is + sizeAll js) (.pairs rest) ks c₃ →
      Writes c start (.pairs ((key, value) :: rest)) (is ++ (js ++ ks)) c₃
  | branchNil {c start} : Writes c start (.branch []) [.pushNull] c
  | branchExpr {c c' start e span is} :
      Writes c start (.expr e) is c' → Writes c start (.branch [.expr e span]) is c'
  | branchCons {c c₁ c₂ start s rest is js} :
      (rest = [] → s.isExpr = false) →
      Writes c start (.stmt s) is c₁ →
      Writes c₁ (start + sizeAll is) (.branch rest) js c₂ →
      Writes c start (.branch (s :: rest)) (is ++ js) c₂
  | bodyNil {c start} : Writes c start (.body []) [.returnNull] c
  | bodyExpr {c c' start e span is} :
      Writes c start (.expr e) is c' →
      Writes c start (.body [.expr e span]) (is ++ [.returnValue]) c'
  | bodyRet {c c' start e span is} :
      c.symbols.isGlobal = false → Writes c start (.expr e) is c' →
      Writes c start (.body [.ret e span]) (is ++ [.returnValue]) c'
  | bodyCons {c c₁ c₂ start s rest is js} :
      (rest = [] → s.isBind = true) →
      Writes c start (.stmt s) is c₁ →
      Writes c₁ (start + sizeAll is) (.body rest) js c₂ →
      Writes c start (.body (s :: rest)) (is ++ js) c₂
  | stmtExpr {c c' start e span is} :
      Writes c start (.expr e) is c' → Writes c start (.stmt (.expr e span)) (is ++ [.pop]) c'
  | stmtBind {c c' start name e span is i} :
      Writes c start (.expr e) is c' →
      (c'.symbols.define (Ident.name name)).1.store? = some i →
      Writes c start (.stmt (.bind name e span)) (is ++ [i])
        { c' with symbols := (c'.symbols.define name.name).2 }
  | stmtRet {c c' start e span is} :
      c.symbols.isGlobal = false → Writes c start (.expr e) is c' →
      Writes c start (.stmt (.ret e span)) (is ++ [.returnValue]) c'
  | stmtsNil {c start} : Writes c start (.stmts []) [] c
  | stmtsCons {c c₁ c₂ start s rest is js} :
      Writes c start (.stmt s) is c₁ →
      Writes c₁ (start + sizeAll is) (.stmts rest) js c₂ →
      Writes c start (.stmts (s :: rest)) (is ++ js) c₂

end StackScript
