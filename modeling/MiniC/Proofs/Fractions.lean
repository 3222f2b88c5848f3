import MiniC.Proofs.Compilation
import MiniC.Proofs.Parsing.Leaves

namespace MiniC

inductive Use where
  | operand | condition | index | argument | target | assigned | returned | size
  /-- The value of a statement, which is dropped. -/
  | idle
deriving DecidableEq, Repr

mutual

/-- The numbers of an expression from left to right, each with its use; the last argument is the use
    of the expression. -/
def Expr.places : Expr → Use → List (Use × Numeral)
  | .missing, _ | .name _, _ => []
  | .number n, use => [(use, n)]
  | .index _ subscript, _ => subscript.places .index
  | .call _ args, _ => Expr.placesAll args
  | .unary _ _ operand, _ => operand.places .operand
  | .binary _ _ left right, _ => left.places .operand ++ right.places .operand
  | .assign _ target value, _ => target.places .target ++ value.places .assigned

def Expr.placesAll : List Expr → List (Use × Numeral)
  | [] => []
  | e :: rest => e.places .argument ++ Expr.placesAll rest

end

def VarDecl.places (d : VarDecl) : List (Use × Numeral) :=
  match d.extent with
  | .scalar => []
  | .array size => size.toList.map fun n => (.size, n)

mutual

def Stmt.places : Stmt → List (Use × Numeral)
  | .skipped | .empty | .leave _ | .again _ | .ret _ none => []
  | .expr e => e.places .idle
  | .ret _ (some e) => e.places .returned
  | .block vars body => vars.flatMap VarDecl.places ++ Stmt.placesAll body
  | .ifThen _ condition body | .loop _ condition body => condition.places .condition ++ body.places
  | .ifElse _ condition body orElse => condition.places .condition ++ body.places ++ orElse.places

def Stmt.placesAll : List Stmt → List (Use × Numeral)
  | [] => []
  | s :: rest => s.places ++ Stmt.placesAll rest

end

def Decl.places : Decl → List (Use × Numeral)
  | .var d => d.places
  | .fn f => f.vars.flatMap VarDecl.places ++ Stmt.placesAll f.body

def Source.places (s : Source) : List (Use × Numeral) :=
  s.decls.flatMap Decl.places

def Terminal.numeral? : Terminal → Option Numeral
  | .number n => some n
  | _ => none

section Numerals

def numerals (ms : List Mark) : List Numeral :=
  ms.filterMap fun m => m.terminal.numeral?

theorem numerals_append (front back : List Mark) : numerals (front ++ back) = numerals front ++ numerals back :=
  List.filterMap_append

theorem numerals_flatMap {α : Type} {marks : α → List Mark} {places : α → List (Use × Numeral)} {parts : List α}
    (each : ∀ a ∈ parts, numerals (marks a) = (places a).map Prod.snd) :
    numerals (parts.flatMap marks) = (parts.flatMap places).map Prod.snd := by
  induction parts with
  | nil => rfl
  | cons a rest ih =>
    rw [List.flatMap_cons, numerals_append, each a List.mem_cons_self,
      ih fun a member => each a (List.mem_cons_of_mem _ member), List.flatMap_cons, List.map_append]

theorem Expr.numerals_marksAll {args : List Expr}
    (each : ∀ e ∈ args, ∀ use, numerals e.marks = (e.places use).map Prod.snd) :
    numerals (Expr.marksAll args) = (Expr.placesAll args).map Prod.snd := by
  induction args with
  | nil => rfl
  | cons e rest ih =>
    rw [Expr.marksAll, numerals_append, each e List.mem_cons_self .argument,
      ih fun e member => each e (List.mem_cons_of_mem _ member), Expr.placesAll, List.map_append]

theorem Expr.numerals_marks (e : Expr) (use : Use) : numerals e.marks = (e.places use).map Prod.snd := by
  induction e using Expr.induction generalizing use with
  | missing | number | name => rfl
  | index array e ih => exact ih .index
  | call callee args ih => exact Expr.numerals_marksAll ih
  | unary op line e ih => exact ih .operand
  | binary op line left right ihl ihr =>
    rw [Expr.marks, numerals_append, ihl .operand, Expr.places, List.map_append, ← ihr .operand]
    rfl
  | assign line target value iht ihv =>
    rw [Expr.marks, numerals_append, iht .target, ihv .assigned, Expr.places, List.map_append]

theorem VarDecl.numerals_marks (d : VarDecl) : numerals d.marks = d.places.map Prod.snd := by
  rcases d with ⟨type, id, extent⟩
  rcases extent with _ | (_ | n) <;> rfl

theorem Stmt.numerals_marksAll {body : List Stmt} (each : ∀ s ∈ body, numerals s.marks = s.places.map Prod.snd) :
    numerals (Stmt.marksAll body) = (Stmt.placesAll body).map Prod.snd := by
  induction body with
  | nil => rfl
  | cons s rest ih =>
    rw [Stmt.marksAll, numerals_append, each s List.mem_cons_self,
      ih fun s member => each s (List.mem_cons_of_mem _ member), Stmt.placesAll, List.map_append]

theorem Stmt.numerals_marks (s : Stmt) : numerals s.marks = s.places.map Prod.snd := by
  induction s using Stmt.induction with
  | skipped | empty | leave | again => rfl
  | expr e => exact e.numerals_marks .idle
  | block vars body ih =>
    rw [Stmt.marks, numerals_append, numerals_flatMap fun d _ => d.numerals_marks, Stmt.numerals_marksAll ih, Stmt.places,
      List.map_append]
  | ifThen line e body ih | loop line e body ih =>
    rw [Stmt.marks, numerals_append, e.numerals_marks .condition, ih, Stmt.places, List.map_append]
  | ifElse line e body orElse ih ih' =>
    rw [Stmt.marks, numerals_append, numerals_append, e.numerals_marks .condition, ih, ih', Stmt.places, List.map_append,
      List.map_append]
  | ret line value =>
    cases value with
    | none => rfl
    | some e => exact e.numerals_marks .returned

theorem Params.numerals_marks (ps : Params) : numerals ps.marks = [] := by
  cases ps with
  | void => rfl
  | list params =>
    have bare : ∀ p ∈ params, numerals p.marks = ([] : List (Use × Numeral)).map Prod.snd := by
      intro p _
      cases p <;> rfl
    have none := @numerals_flatMap Param Param.marks (fun _ => []) params bare
    rw [Params.marks, none, List.flatMap_eq_nil_iff.mpr fun _ _ => rfl]
    rfl

theorem Decl.numerals_marks (d : Decl) : numerals d.marks = d.places.map Prod.snd := by
  cases d with
  | var d => exact d.numerals_marks
  | fn f =>
    have inner : numerals (f.params.marks ++ (f.vars.flatMap VarDecl.marks ++ Stmt.marksAll f.body)) =
        (Decl.fn f).places.map Prod.snd := by
      rw [numerals_append, numerals_append, f.params.numerals_marks, numerals_flatMap fun d _ => d.numerals_marks,
        Stmt.numerals_marksAll fun s _ => s.numerals_marks, Decl.places, List.map_append, List.nil_append]
    exact inner

theorem Source.numerals_marks (s : Source) : numerals s.marks = s.places.map Prod.snd :=
  numerals_flatMap fun d _ => d.numerals_marks

theorem numerals_eq_of_fits {ms : List Mark} {ts : List Token} (fits : List.Forall₂ Mark.Fits ms ts) :
    numerals ms = ts.filterMap fun t => t.terminal.numeral? := by
  induction fits with
  | nil => rfl
  | cons fit _ ih =>
    rw [numerals] at ih ⊢
    rw [List.filterMap_cons, List.filterMap_cons, fit.1, ih]

/-- Without a syntax error each number of a text has its place in the tree. -/
theorem numerals_of_clean {text : Text} (clean : (parsedText text).diagnostics = []) :
    ((TokenStream.ofSource text).tokens.filterMap fun t => t.terminal.numeral?) =
      (parsedText text).source.places.map Prod.snd := by
  let stream := TokenStream.ofSource text
  let final := (Parser.source.run (.start stream)).2
  have spent : final.tokens = [] := Parser.spent_source fun ended => by cases ended
  have errors : final.errors.toList = [] := List.map_eq_nil_iff.mp clean
  obtain ⟨ts, kept, split, _, fits, whole⟩ := (Parser.shown_source stream).taken
  rw [spent, List.append_nil] at split
  have same := numerals_eq_of_fits fits
  rw [whole (by simpa using errors), Source.numerals_marks, List.filterMap_filter] at same
  change stream.tokens.filterMap _ = _
  rw [split]
  refine Eq.trans (List.filterMap_congr fun t _ => ?_) same.symm
  split
  · rfl
  · next unshown =>
    have bare : ∀ x ∈ Parser.hidden, x.numeral? = none := by decide
    refine bare t.terminal ?_
    rw [Parser.isShown, decide_eq_true_iff, not_not] at unshown
    exact unshown

end Numerals

namespace Typing

/-- Whether no parameter of a declared function takes a number with a fractional part. -/
def Declared.Integral : Declared → Prop
  | .function _ params => .real ∉ params
  | _ => True

def Integral (Γ : Env) : Prop :=
  ∀ layer ∈ Γ, ∀ binding ∈ layer, binding.2.Integral

theorem Integral.cons {layer : Layer} {Γ : Env} (first : ∀ binding ∈ layer, binding.2.Integral) (rest : Integral Γ) :
    Integral (layer :: Γ) :=
  List.forall_mem_cons.mpr ⟨first, rest⟩

theorem Integral.find? {Γ : Env} (h : Integral Γ) {name : Text} {d : Declared} (found : Γ.find? name = some d) :
    d.Integral := by
  obtain ⟨layer, member, found⟩ := List.exists_of_findSome?_eq_some found
  obtain ⟨before, after, rfl, _⟩ := List.lookup_eq_some_iff.mp found
  exact h _ member (name, d) (by simp)

theorem integral_varLayer (vars : List VarDecl) : ∀ binding ∈ varLayer vars, binding.2.Integral := by
  intro binding member
  obtain ⟨d, _, rfl⟩ := List.mem_map.mp member
  cases d.extent <;> trivial

theorem integral_paramLayer (params : List Param) : ∀ binding ∈ paramLayer params, binding.2.Integral := by
  intro binding member
  obtain ⟨p, _, known⟩ := List.mem_filterMap.mp member
  rcases p with type | ⟨type, id, _ | _⟩ <;> cases known <;> trivial

theorem integral_functionEntry (f : FunDecl) : (functionEntry f).2.Integral := by
  intro member
  obtain ⟨p, _, known⟩ := List.mem_filterMap.mp member
  rcases p with type | ⟨type, id, _ | _⟩ <;> cases known

variable {Γ : Env}

/-- Whether a number with a fractional part can only be the whole of an expression. -/
def Atomic (Γ : Env) (e : Expr) : Prop :=
  ∀ ⦃type : Ty⦄, HasType Γ e type → ∀ use, ∀ p ∈ e.places use, p.2.real = true → p.1 = use ∧ type = .real

theorem Atomic.integral {e : Expr} {type : Ty} (h : Atomic Γ e) (typed : HasType Γ e type) (other : type ≠ .real)
    (use : Use) : ∀ p ∈ e.places use, p.2.real = false := by
  intro p member
  rw [Bool.eq_false_iff]
  intro real
  exact other (h typed use p member real).2

theorem integral_arguments {args : List Expr} {types : List Ty} (each : ∀ e ∈ args, Atomic Γ e)
    (typed : HasTypes Γ args types) (plain : .real ∉ types) : ∀ p ∈ Expr.placesAll args, p.2.real = false := by
  induction args generalizing types with
  | nil =>
    intro p member
    cases member
  | cons e rest ih =>
    cases typed with
    | cons first others =>
      rw [List.mem_cons, not_or] at plain
      have here := (each e List.mem_cons_self).integral first (Ne.symm plain.1) .argument
      have later := ih (fun e member => each e (List.mem_cons_of_mem _ member)) others plain.2
      exact List.forall_mem_append.mpr ⟨here, later⟩

theorem atomic_of_integral {e : Expr}
    (none : ∀ use, ∀ ⦃type : Ty⦄, HasType Γ e type → ∀ p ∈ e.places use, p.2.real = false) :
    Atomic Γ e := by
  intro type typed use p member real
  rw [none use typed p member] at real
  cases real

theorem atomic (integral : Integral Γ) (e : Expr) : Atomic Γ e := by
  induction e using Expr.induction with
  | missing =>
    intro type typed
    cases typed
  | number n =>
    intro type typed use p member real
    cases List.mem_singleton.mp member
    cases typed with
    | integer whole =>
      rw [whole] at real
      cases real
    | real _ => exact ⟨rfl, rfl⟩
  | name id =>
    intro type typed use p member
    cases member
  | index array e ih =>
    apply atomic_of_integral
    intro use type typed
    cases typed with
    | index _ inner => exact ih.integral inner (by decide) .index
  | call callee args ih =>
    apply atomic_of_integral
    intro use type typed
    cases typed with
    | call found inner => exact integral_arguments ih inner (integral.find? found)
  | unary op line e ih =>
    apply atomic_of_integral
    intro use type typed
    cases typed with
    | unary inner => exact ih.integral inner (by decide) .operand
  | binary op line left right ihl ihr =>
    apply atomic_of_integral
    intro use type typed
    cases typed with
    | binary first second =>
      exact List.forall_mem_append.mpr ⟨ihl.integral first (by decide) .operand, ihr.integral second (by decide) .operand⟩
  | assign line target value iht ihv =>
    apply atomic_of_integral
    intro use type typed
    cases typed with
    | assign _ first second =>
      exact List.forall_mem_append.mpr ⟨iht.integral first (by decide) .target, ihv.integral second (by decide) .assigned⟩

/-- The uses that a number with a fractional part is not reported in. -/
def Tolerated (p : Use × Numeral) : Prop :=
  p.2.real = true → p.1 = .idle ∨ p.1 = .size

theorem tolerated_of_int {e : Expr} (integral : Integral Γ) (typed : HasType Γ e .int) (use : Use) :
    ∀ p ∈ e.places use, Tolerated p := by
  intro p member real
  rw [(atomic integral e).integral typed (by decide) use p member] at real
  cases real

theorem tolerated_vars (vars : List VarDecl) : ∀ p ∈ vars.flatMap VarDecl.places, Tolerated p := by
  intro p member _
  obtain ⟨d, _, member⟩ := List.mem_flatMap.mp member
  rcases d with ⟨type, id, extent⟩
  cases extent with
  | scalar => cases member
  | array size =>
    obtain ⟨n, _, rfl⟩ := List.mem_map.mp member
    exact .inr rfl

theorem tolerated_stmts {body : List Stmt} (each : ∀ s ∈ body, ∀ p ∈ s.places, Tolerated p) :
    ∀ p ∈ Stmt.placesAll body, Tolerated p := by
  induction body with
  | nil =>
    intro p member
    cases member
  | cons s rest ih =>
    exact List.forall_mem_append.mpr ⟨each s List.mem_cons_self, ih fun s member => each s (List.mem_cons_of_mem _ member)⟩

theorem tolerated_stmt {result : TypeName} {inLoop : Bool} {s : Stmt} (integral : Integral Γ)
    (ok : StmtOk result inLoop Γ s) : ∀ p ∈ s.places, Tolerated p := by
  induction ok with
  | empty | ret | leave | again =>
    intro p member
    cases member
  | @expr _ _ e _ typed =>
    intro p member real
    exact .inl (atomic integral e typed .idle p member real).1
  | @block _ Γ vars body _ _ _ ih =>
    have inner : Integral (varLayer vars :: Γ) := integral.cons (integral_varLayer vars)
    exact List.forall_mem_append.mpr ⟨tolerated_vars vars, tolerated_stmts fun s member => ih s member inner⟩
  | ifThen typed _ ih | loop typed _ ih =>
    exact List.forall_mem_append.mpr ⟨tolerated_of_int integral typed .condition, ih integral⟩
  | ifElse typed _ _ ih ih' =>
    exact List.forall_mem_append.mpr
      ⟨List.forall_mem_append.mpr ⟨tolerated_of_int integral typed .condition, ih integral⟩, ih' integral⟩
  | value _ typed => exact tolerated_of_int integral typed .returned

theorem tolerated_function {globals : Layer} {f : FunDecl} (integral : ∀ binding ∈ globals, binding.2.Integral)
    (ok : FunctionOk globals f) : ∀ p ∈ (Decl.fn f).places, Tolerated p := by
  have layers : Integral [localLayer f, globals] := by
    refine Integral.cons (List.forall_mem_append.mpr ⟨integral_paramLayer _, integral_varLayer _⟩) (.cons integral ?_)
    intro layer member
    cases member
  exact List.forall_mem_append.mpr ⟨tolerated_vars f.vars, tolerated_stmts fun s member =>
    tolerated_stmt layers (ok.body s member)⟩

theorem tolerated_decls {globals final : Layer} {decls : List Decl} (integral : ∀ binding ∈ globals, binding.2.Integral)
    (ok : DeclsOk globals decls final) : ∀ p ∈ decls.flatMap Decl.places, Tolerated p := by
  induction ok with
  | nil =>
    intro p member
    cases member
  | @var globals final d rest _ _ _ ih =>
    have here := tolerated_vars [d]
    rw [List.flatMap_singleton] at here
    exact List.forall_mem_append.mpr ⟨here, ih (List.forall_mem_append.mpr ⟨integral, integral_varLayer [d]⟩)⟩
  | @fn globals final f rest _ function _ ih =>
    have next : ∀ binding ∈ globals ++ [functionEntry f], binding.2.Integral :=
      List.forall_mem_append.mpr ⟨integral, by simpa using integral_functionEntry f⟩
    exact List.forall_mem_append.mpr ⟨tolerated_function next function, ih next⟩

theorem WellTyped.tolerated {s : Source} (h : WellTyped s) : ∀ p ∈ s.places, Tolerated p := by
  obtain ⟨globals, ok, _⟩ := h
  apply tolerated_decls _ ok
  intro binding member
  cases List.mem_singleton.mp member
  exact (by decide : Ty.real ∉ [Ty.int])

end Typing

def Numeral.counted (n : Numeral) : Numeral :=
  if n.real then ⟨"1", 1, false⟩ else n

def VarDecl.counted (d : VarDecl) : VarDecl :=
  match d.extent with
  | .scalar => d
  | .array size => { d with extent := .array (size.map Numeral.counted) }

mutual

def Stmt.counted : Stmt → Stmt
  | .block vars body => .block (vars.map VarDecl.counted) (Stmt.countedAll body)
  | .ifThen line condition body => .ifThen line condition body.counted
  | .ifElse line condition body orElse => .ifElse line condition body.counted orElse.counted
  | .loop line condition body => .loop line condition body.counted
  | s => s

def Stmt.countedAll : List Stmt → List Stmt
  | [] => []
  | s :: rest => s.counted :: Stmt.countedAll rest

end

def Decl.counted : Decl → Decl
  | .var d => .var d.counted
  | .fn f => .fn { f with vars := f.vars.map VarDecl.counted, body := Stmt.countedAll f.body }

def Source.counted (s : Source) : Source :=
  { s with decls := s.decls.map Decl.counted }

namespace Codegen

theorem arrayLength_counted (id : Ident) (size : Option Numeral) :
    arrayLength id (size.map Numeral.counted) = arrayLength id size := by
  funext g
  have counted := run_arrayLength id (size.map Numeral.counted) g
  refine counted.trans (Eq.trans ?_ (run_arrayLength id size g).symm)
  cases size with
  | none => rfl
  | some n =>
    by_cases real : n.real = true
    · have one : n.counted = ⟨"1", 1, false⟩ := if_pos real
      simp only [Option.map_some, one, lengthOf, sizeVerdict, real]
      rfl
    · have same : n.counted = n := if_neg real
      rw [Option.map_some, same]

theorem varDecl_counted (d : VarDecl) : varDecl d.counted = varDecl d := by
  rcases d with ⟨type, id, extent⟩
  cases extent with
  | scalar => rfl
  | array size => simp only [VarDecl.counted, varDecl, arrayLength_counted]

theorem forM_map {α : Type} {f : α → GenM Unit} {change : α → α} (same : ∀ a, f (change a) = f a) (l : List α) :
    (l.map change).forM f = l.forM f := by
  induction l with
  | nil => rfl
  | cons a rest ih =>
    change (f (change a) >>= fun _ => (rest.map change).forM f) = (f a >>= fun _ => rest.forM f)
    rw [same, ih]

theorem stmts_counted {body : List Stmt} (each : ∀ s ∈ body, stmt s.counted = stmt s) :
    stmts (Stmt.countedAll body) = stmts body := by
  induction body with
  | nil => rfl
  | cons s rest ih =>
    rw [Stmt.countedAll, stmts, stmts, each s List.mem_cons_self, ih fun s member => each s (List.mem_cons_of_mem _ member)]

theorem stmt_counted (s : Stmt) : stmt s.counted = stmt s := by
  induction s using Stmt.induction with
  | skipped | empty | expr | ret | leave | again => rfl
  | block vars body ih => simp only [Stmt.counted, stmt, forM_map varDecl_counted, stmts_counted ih]
  | ifThen line e body ih | loop line e body ih => simp only [Stmt.counted, stmt, ih]
  | ifElse line e body orElse ih ih' => simp only [Stmt.counted, stmt, ih, ih']

theorem decl_counted (d : Decl) : decl d.counted = decl d := by
  cases d with
  | var d => exact varDecl_counted d
  | fn f =>
    simp only [Decl.counted, decl, funDecl, forM_map varDecl_counted, stmts_counted fun s _ => stmt_counted s]

/-- The size of an array is not looked at if it has a fractional part. -/
theorem run_counted (s : Source) : run s.counted = run s := by
  simp only [run, source, Source.counted, forM_map decl_counted]

end Codegen

theorem compile_of_errors {text : Text} {g : Codegen} (errors : (reported text g).hasErrors = true)
    (compiles : compile text = (assemble (reported text g) g.emitter.program).map (compiled text g)) :
    ∃ c, compile text = .ok c ∧ c.ok = false := by
  rw [assemble, errors, if_pos rfl] at compiles
  exact ⟨_, compiles, congrArg (! ·) errors⟩

/-- Where a number with a fractional part may stand in a text on which nothing is reported: it is the
    value of a statement, or the size of an array, which then counts as one. All numbers of such a text
    have their place in the tree. -/
theorem fractions_of_text (text : Text) :
    ((∃ c, compile text = .ok c ∧ c.ok = false) ∨
      ((TokenStream.ofSource text).tokens.filterMap fun t => t.terminal.numeral?) =
          (parsedText text).source.places.map Prod.snd ∧
        ∀ p ∈ (parsedText text).source.places, p.2.real = true → p.1 = .idle ∨ p.1 = .size) ∧
      generate (parsedText text).source.counted = generate (parsedText text).source := by
  obtain ⟨g, run, _, _, _, _, _, compiles⟩ := exists_generated text
  constructor
  · cases clean : (reported text g).hasErrors with
    | true => exact .inl (compile_of_errors clean compiles)
    | false => exact .inr ⟨numerals_of_clean (reported_clean clean).1, (programCode_of_clean run clean).1.tolerated⟩
  · rw [generate, generate, Codegen.run_counted]

def halfText : Text :=
  "void main(void) \x7b output(1.5); \x7d"

theorem fractions_of_text_half :
    (.argument, ⟨"1.5", 1, true⟩) ∈ (parsedText halfText).source.places ∧ ∃ c, compile halfText = .ok c ∧ c.ok = false := by
  have member : (.argument, ⟨"1.5", 1, true⟩) ∈ (parsedText halfText).source.places := by decide +kernel
  refine ⟨member, ?_⟩
  rcases (fractions_of_text halfText).1 with reported | ⟨_, places⟩
  · exact reported
  · rcases places _ member rfl with idle | size
    · cases idle
    · cases size

def cellText : Text :=
  "int a[2.5]; void main(void) \x7b a[0] = 1; output(a[0]); \x7d"

/-- A number with a fractional part as the size of an array is not reported. -/
theorem fraction_accepted_cellText :
    (.size, ⟨"2.5", 2, true⟩) ∈ (parsedText cellText).source.places ∧ ∃ c, compile cellText = .ok c ∧ c.ok = true :=
  ⟨by decide +kernel, exists_of_checked (by decide +kernel)⟩

end MiniC
