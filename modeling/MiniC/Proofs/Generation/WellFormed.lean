import MiniC.Machine.Step
import MiniC.Proofs.Generation.Translation
import MiniC.Proofs.Syntax

namespace MiniC

def Instruction.push (i : Instruction) : Int :=
  match i.op with
  | .param => 1
  | .call => -i.a2.value.toInt
  | _ => 0

/-- The arguments pushed by the instructions before an index, less those that calls took. -/
def depth (code : Array Instruction) (n : Nat) : Int :=
  ((code.toList.take n).map Instruction.push).sum

theorem depth_succ {code : Array Instruction} {n : Nat} {i : Instruction} (found : code[n]? = some i) :
    depth code (n + 1) = depth code n + i.push := by
  have listed : code.toList[n]? = some i := by simpa using found
  simp [depth, List.take_add_one, listed]

theorem Operand.value_label {n : Nat} (small : n < 2 ^ 63) : (Operand.label n).value.toInt = n :=
  Int64.toInt_ofInt_of_le (by omega) (by omega)

def Operand.Readable (o : Operand) : Prop :=
  o.kind = .imm ∨ o.isStorage = true

abbrev Machine.Computes (op : Opcode) : Prop :=
  (Machine.arithmetic? op).isSome ∨ op = .div ∨ op = .mod

namespace Translation

variable {code : Array Instruction} {frame : List Slot} {Γ : Scoped Home}

def Level (code : Array Instruction) (m n : Nat) : Prop :=
  m ≤ n ∧ depth code n = depth code m

theorem Level.refl (n : Nat) : Level code n n :=
  ⟨Nat.le_refl n, rfl⟩

theorem Level.trans {l m n : Nat} (first : Level code l m) (second : Level code m n) : Level code l n :=
  ⟨Nat.le_trans first.1 second.1, second.2.trans first.2⟩

theorem Level.step {n : Nat} {i : Instruction} (found : code[n]? = some i) (silent : i.push = 0) :
    Level code n (n + 1) :=
  ⟨Nat.le_succ n, by rw [depth_succ found, silent, Int.add_zero]⟩

theorem BaseCode.level {location o : Operand} {isParam : Bool} {p q : Place}
    (h : BaseCode code frame location isParam p o q) : Level code p.pc q.pc := by
  cases h with
  | param => exact .refl _
  | own _ found => exact .step found rfl

theorem ArgsCode.level {args : List Expr} {types : List Ty} {p q : Place}
    (levels : ∀ e ∈ args, ∀ {p q : Place} {type : Ty} {o : Operand}, ExprCode code frame Γ e p type o q →
      Level code p.pc q.pc) (h : ArgsCode code frame Γ args p types q) :
    p.pc + args.length ≤ q.pc ∧ depth code q.pc = depth code p.pc + args.length := by
  induction args generalizing p types with
  | nil =>
    cases h
    exact ⟨Nat.le_refl _, by simp⟩
  | cons e rest ih =>
    have later := fun {p types} => @ih types p fun e member => levels e (by simp [member])
    cases h with
    | word first found others =>
      obtain ⟨le, same⟩ := levels e (by simp) first
      obtain ⟨le', same'⟩ := later others
      have pushed : depth code (Place.next _).pc = _ := depth_succ found
      simp only [Instruction.push] at pushed
      simp only [Place.next, List.length_cons] at *
      omega
    | array _ base found others =>
      obtain ⟨le, same⟩ := base.level
      obtain ⟨le', same'⟩ := later others
      have pushed : depth code (Place.next _).pc = _ := depth_succ found
      simp only [Instruction.push] at pushed
      simp only [Place.next, List.length_cons] at *
      omega

theorem ArgsCode.level_call {args : List Expr} {types : List Ty} {p q : Place} {i : Instruction}
    (short : code.size < 2 ^ 63)
    (levels : ∀ e ∈ args, ∀ {p q : Place} {type : Ty} {o : Operand}, ExprCode code frame Γ e p type o q →
      Level code p.pc q.pc) (h : ArgsCode code frame Γ args p types q) (found : code[q.pc]? = some i)
    (call : i.op = .call) (count : i.a2.value = .ofNat args.length) : Level code p.pc (q.pc + 1) := by
  obtain ⟨le, same⟩ := h.level levels
  have bound := (Array.getElem?_eq_some_iff.mp found).1
  have taken : i.push = -args.length := by
    simp only [Instruction.push, call, count]
    rw [Int64.toInt_ofNat_of_lt (by omega)]
  refine ⟨by omega, ?_⟩
  rw [depth_succ found, same, taken]
  omega

theorem ExprCode.level (short : code.size < 2 ^ 63) (e : Expr) {p q : Place} {type : Ty} {o : Operand}
    (h : ExprCode code frame Γ e p type o q) : Level code p.pc q.pc := by
  induction e using Expr.induction generalizing p q type o with
  | missing => cases h
  | number n => cases h <;> exact .refl _
  | name id => cases h <;> exact .refl _
  | index id e ih =>
    cases h with
    | index first _ base _ found => exact ((ih first).trans base.level).trans (.step found rfl)
  | call id args ih =>
    cases h with
    | print _ first found => exact (ih _ (by simp) first).trans (.step found rfl)
    | procedure _ pushes found => exact pushes.level_call short ih found rfl rfl
    | function _ pushes _ found => exact pushes.level_call short ih found rfl rfl
  | unary op line e ih =>
    cases h with
    | unary first _ found => exact (ih first).trans (.step found (by cases op <;> rfl))
  | binary op line left right ihl ihr =>
    cases h with
    | binary known first second _ found =>
      exact ((ihl first).trans (ihr second)).trans (.step found (by cases op <;> cases known <;> rfl))
    | and first _ set jump second found =>
      exact (((ihl first).trans (.step set rfl)).trans (.step jump rfl)).trans ((ihr second).trans (.step found rfl))
    | or first _ _ set test jump second found =>
      exact ((((ihl first).trans (.step set rfl)).trans (.step test rfl)).trans (.step jump rfl)).trans
        ((ihr second).trans (.step found rfl))
  | assign line target value iht ihv =>
    cases h with
    | assign _ first second found => exact ((iht first).trans (ihv second)).trans (.step found rfl)

theorem StmtsCode.level {result : TypeName} {loop : Option Turn} {body : List Stmt} {p q : Place}
    (levels : ∀ s ∈ body, ∀ {loop : Option Turn} {Γ : Scoped Home} {p q : Place},
      StmtCode code frame result loop Γ s p q → Level code p.pc q.pc)
    (h : StmtsCode code frame result loop Γ body p q) : Level code p.pc q.pc := by
  induction body generalizing p with
  | nil =>
    cases h
    exact .refl _
  | cons s rest ih =>
    cases h with
    | cons first others => exact (levels s (by simp) first).trans (ih (fun s member => levels s (by simp [member])) others)

theorem StmtCode.level (short : code.size < 2 ^ 63) {result : TypeName} (s : Stmt) {loop : Option Turn}
    {Γ : Scoped Home} {p q : Place} (h : StmtCode code frame result loop Γ s p q) : Level code p.pc q.pc := by
  induction s using Stmt.induction generalizing loop Γ p q with
  | skipped => cases h
  | empty =>
    cases h
    exact .refl _
  | expr e =>
    cases h with
    | expr first => exact first.level short
  | block vars body ih =>
    cases h with
    | block _ body =>
      have level := StmtsCode.level ih body
      exact level
  | ifThen line e body ih =>
    cases h with
    | ifThen test jump first => exact ((test.level short).trans (.step jump rfl)).trans (ih first)
  | ifElse line e body orElse ih ih' =>
    cases h with
    | ifElse test jump first skip second =>
      exact (((test.level short).trans (.step jump rfl)).trans (ih first)).trans ((Level.step skip rfl).trans (ih' second))
  | loop line e body ih =>
    cases h with
    | loop test jump first back =>
        exact (((test.level short).trans (.step jump rfl)).trans (ih first)).trans (.step back rfl)
  | ret line value =>
    cases h with
    | ret _ found => exact .step found rfl
    | value _ first found => exact (first.level short).trans (.step found rfl)
  | leave line =>
    cases h with
    | leave found => exact .step found rfl
  | again line =>
    cases h with
    | again found => exact .step found rfl

def EntryAt (code : Array Instruction) (entry count : Nat) : Prop :=
  ∃ size, code[entry]? = some { op := .func, a1 := .imm size, a2 := .imm (.ofNat count) }

theorem EntryAt.lt_size {entry count : Nat} (h : EntryAt code entry count) : entry < code.size := by
  obtain ⟨size, found⟩ := h
  exact (Array.getElem?_eq_some_iff.mp found).1

theorem EntryAt.isEntry {p : Program} {entry count : Nat} (h : EntryAt p.code entry count) : p.isEntry entry = true := by
  obtain ⟨size, found⟩ := h
  have fetched : p.fetch? entry = p.code[entry]? := rfl
  rw [Program.isEntry, fetched, found]
  rfl

/-- Whether a jump from an index may go to another: it stays within the body of the function and
    finds as many arguments pushed. -/
structure Reaches (code : Array Instruction) (entry last n target : Nat) : Prop where
  after : entry < target
  before : target ≤ last
  level : depth code target = depth code n

inductive Proper (code : Array Instruction) (entry last n : Nat) : Instruction → Prop where
  | compute {op : Opcode} {x y t : Operand} :
    Machine.Computes op → x.Readable → y.Readable → t.isStorage = true →
      Proper code entry last n { op := op, a1 := x, a2 := y, a3 := t }
  | assign {x t : Operand} :
    x.Readable → t.isStorage = true → Proper code entry last n { op := .assign, a1 := x, a2 := t }
  | address {x t : Operand} :
    x.isStorage = true → x.indirect = false → t.isStorage = true →
      Proper code entry last n { op := .addr, a1 := x, a3 := t }
  | jump {target : Nat} :
    Reaches code entry last n target → Proper code entry last n { op := .jp, a1 := .label target }
  | branch {x : Operand} {target : Nat} :
    x.Readable → Reaches code entry last n target →
      Proper code entry last n { op := .jpf, a1 := x, a2 := .label target }
  | print {x : Operand} : x.Readable → Proper code entry last n { op := .print, a1 := x }
  | param {x : Operand} : x.Readable → Proper code entry last n { op := .param, a1 := x }
  | call {callee count : Nat} {t : Operand} :
    EntryAt code callee count → count ≤ depth code n → count ≤ n → (t = .absent ∨ t.isStorage = true) →
      Proper code entry last n { op := .call, a1 := .label callee, a2 := .imm (.ofNat count), a3 := t }
  | ret {x : Operand} :
    (x = .absent ∨ x.Readable) → depth code n = 0 → Proper code entry last n { op := .ret, a1 := x }

def Covered (code : Array Instruction) (entry last m n : Nat) : Prop :=
  ∀ j, m ≤ j → j < n → ∃ i, code[j]? = some i ∧ Proper code entry last j i

variable {entry last : Nat}

theorem Covered.nil {n : Nat} : Covered code entry last n n :=
  fun _ after before => absurd after (by omega)

theorem Covered.append {l m n : Nat} (first : Covered code entry last l m) (second : Covered code entry last m n) :
    Covered code entry last l n := by
  intro j after before
  by_cases earlier : j < m
  · exact first j after earlier
  · exact second j (by omega) before

theorem Covered.single {n : Nat} {i : Instruction} (found : code[n]? = some i) (proper : Proper code entry last n i) :
    Covered code entry last n (n + 1) := by
  intro j after before
  obtain rfl : j = n := by omega
  exact ⟨i, found, proper⟩

def HomeOk (code : Array Instruction) : Home → Prop
  | .var o => o.isStorage = true
  | .array o _ => o.isStorage = true ∧ o.indirect = false
  | .function entry _ params => EntryAt code entry params.length
  | .output => True

def HomesOk (code : Array Instruction) (Γ : Scoped Home) : Prop :=
  ∀ name home, Γ.find? name = some home → HomeOk code home

def LayerOk (code : Array Instruction) (homes : Bindings Home) : Prop :=
  ∀ name home, homes.lookup name = some home → HomeOk code home

theorem LayerOk.nil : LayerOk code [] :=
  fun _ _ known => nomatch known

theorem LayerOk.cons {homes : Bindings Home} {name : Text} {home : Home} (first : HomeOk code home)
    (rest : LayerOk code homes) : LayerOk code ((name, home) :: homes) := by
  intro name' home' known
  rw [List.lookup_cons] at known
  split at known
  · cases known
    exact first
  · exact rest name' home' known

theorem LayerOk.append {homes homes' : Bindings Home} (first : LayerOk code homes) (second : LayerOk code homes') :
    LayerOk code (homes ++ homes') := by
  intro name home known
  rw [List.lookup_append, Option.or_eq_some_iff] at known
  rcases known with known | ⟨_, known⟩
  · exact first name home known
  · exact second name home known

theorem HomesOk.nil : HomesOk code [] :=
  fun _ _ known => nomatch known

theorem HomesOk.cons {homes : Bindings Home} (own : LayerOk code homes) (rest : HomesOk code Γ) :
    HomesOk code (homes :: Γ) := by
  intro name home known
  rw [Scoped.find?_cons, Option.or_eq_some_iff] at known
  rcases known with known | ⟨_, known⟩
  · exact own name home known
  · exact rest name home known

theorem Temp.isStorage {i : Nat} {o : Operand} (temp : Temp frame i o) : o.isStorage = true := by
  obtain ⟨s, _, _, _, rfl⟩ := temp
  rfl

theorem Temp.readable {i : Nat} {o : Operand} (temp : Temp frame i o) : o.Readable :=
  .inr temp.isStorage

theorem BaseCode.covered {location o : Operand} {isParam : Bool} {p q : Place}
    (home : HomeOk code (.array location isParam)) (h : BaseCode code frame location isParam p o q) :
    Covered code entry last p.pc q.pc ∧ o.Readable := by
  obtain ⟨storage, direct⟩ := home
  cases h with
  | param => exact ⟨.nil, .inr storage⟩
  | own temp found => exact ⟨.single found (.address storage direct temp.isStorage), temp.readable⟩

theorem ArgsCode.place_le {args : List Expr} {types : List Ty} {p q : Place} (short : code.size < 2 ^ 63)
    (h : ArgsCode code frame Γ args p types q) : p.pc ≤ q.pc := by
  have level := h.level fun e _ => ExprCode.level short e
  omega

theorem ArgsCode.covered {args : List Expr} {types : List Ty} {p q : Place} (short : code.size < 2 ^ 63)
    (homes : HomesOk code Γ)
    (each : ∀ e ∈ args, ∀ {p q : Place} {type : Ty} {o : Operand}, ExprCode code frame Γ e p type o q →
      entry < p.pc → q.pc ≤ last → 0 ≤ depth code p.pc → Covered code entry last p.pc q.pc ∧ o.Readable)
    (h : ArgsCode code frame Γ args p types q) (after : entry < p.pc) (before : q.pc ≤ last)
    (positive : 0 ≤ depth code p.pc) : Covered code entry last p.pc q.pc := by
  induction args generalizing p types with
  | nil =>
    cases h
    exact .nil
  | cons e rest ih =>
    have push : ∀ {r : Place} {x : Operand} {types : List Ty}, Covered code entry last p.pc r.pc ∧ x.Readable →
        Level code p.pc r.pc → code[r.pc]? = some { op := .param, a1 := x } →
        ArgsCode code frame Γ rest r.next types q → Covered code entry last p.pc q.pc := by
      intro r x types ⟨covered, readable⟩ ⟨le, same⟩ found others
      have pushed : depth code (r.pc + 1) = depth code r.pc + 1 := depth_succ found
      have later := ih (fun e member => each e (by simp [member])) others (show entry < r.pc + 1 by omega)
        (show 0 ≤ depth code (r.pc + 1) by omega)
      exact (covered.append (.single found (.param readable))).append later
    cases h with
    | @word _ _ _ r _ _ _ first found others =>
      have le : r.pc + 1 ≤ q.pc := others.place_le short
      exact push (each e (by simp) first after (by omega) positive) (first.level short) found others
    | array known base found others => exact push (base.covered (homes _ _ known)) base.level found others

theorem ArgsCode.length_eq {args : List Expr} {types : List Ty} {p q : Place}
    (h : ArgsCode code frame Γ args p types q) : args.length = types.length := by
  induction args generalizing p types with
  | nil =>
    cases h
    rfl
  | cons e rest ih =>
    cases h with
    | word _ _ others | array _ _ _ others => exact congrArg (· + 1) (ih others)

theorem ArgsCode.proper_call {args : List Expr} {types : List Ty} {result : TypeName} {p q : Place} {callee : Nat}
    {t : Operand} (short : code.size < 2 ^ 63) (home : HomeOk code (.function callee result types))
    (h : ArgsCode code frame Γ args p types q) (positive : 0 ≤ depth code p.pc)
    (target : t = .absent ∨ t.isStorage = true) :
    Proper code entry last q.pc { op := .call, a1 := .label callee, a2 := .imm (.ofNat args.length), a3 := t } := by
  have level := h.level fun e _ => ExprCode.level short e
  refine .call ?_ (by omega) (by omega) target
  rw [h.length_eq]
  exact home

theorem ExprCode.isStorage (homes : HomesOk code Γ) {target : Expr} {p q : Place} {x : Operand}
    (h : ExprCode code frame Γ target p .int x q) (place : Typing.IsPlace target) : x.isStorage = true := by
  cases target with
  | name id =>
    cases h with
    | var known => exact homes _ _ known
  | index id e =>
    cases h with
    | index _ _ _ temp => exact temp.isStorage
  | _ => exact place.elim

theorem ExprCode.covered (short : code.size < 2 ^ 63) (homes : HomesOk code Γ) (e : Expr) {p q : Place} {type : Ty}
    {o : Operand} (h : ExprCode code frame Γ e p type o q) (after : entry < p.pc) (before : q.pc ≤ last)
    (positive : 0 ≤ depth code p.pc) : Covered code entry last p.pc q.pc ∧ o.Readable := by
  induction e using Expr.induction generalizing p q type o with
  | missing => cases h
  | number n => cases h <;> exact ⟨.nil, .inl rfl⟩
  | name id =>
    cases h with
    | var known => exact ⟨.nil, .inr (homes _ _ known)⟩
    | array known => exact ⟨.nil, .inr (homes _ _ known).1⟩
  | index id e ih =>
    cases h with
    | @index _ _ _ q r _ _ _ _ _ first known base temp found =>
      have le := base.level.1
      have le' : r.pc + 1 ≤ last := before
      obtain ⟨covered, readable⟩ := ih first after (by omega) positive
      obtain ⟨covered', readable'⟩ := base.covered (homes _ _ known)
      exact ⟨(covered.append covered').append
        (.single found (.compute (.inl rfl) readable' readable temp.isStorage)), .inr temp.isStorage⟩
  | call id args ih =>
    cases h with
    | @print _ _ _ q _ known first found =>
      have le : q.pc + 1 ≤ last := before
      obtain ⟨covered, readable⟩ := ih _ (by simp) first after (by omega) positive
      exact ⟨covered.append (.single found (.print readable)), .inl rfl⟩
    | @procedure _ _ _ q _ _ known pushes found =>
      have le : q.pc + 1 ≤ last := before
      have covered := pushes.covered short homes ih after (by omega) positive
      exact ⟨covered.append (.single found (pushes.proper_call short (homes _ _ known) positive (.inl rfl))), .inl rfl⟩
    | @function _ _ _ q _ _ _ known pushes temp found =>
      have le : q.pc + 1 ≤ last := before
      have covered := pushes.covered short homes ih after (by omega) positive
      exact ⟨covered.append (.single found (pushes.proper_call short (homes _ _ known) positive (.inr temp.isStorage))),
        temp.readable⟩
  | unary op line e ih =>
    cases h with
    | @unary _ _ _ _ q _ _ first temp found =>
      have le : q.pc + 1 ≤ last := before
      obtain ⟨covered, readable⟩ := ih first after (by omega) positive
      refine ⟨covered.append (.single found ?_), temp.readable⟩
      cases op with
      | neg => exact .compute (.inl rfl) (.inl rfl) readable temp.isStorage
      | not => exact .compute (.inl rfl) readable (.inl rfl) temp.isStorage
  | binary op line left right ihl ihr =>
    cases h with
    | @binary _ _ _ _ _ _ q r _ _ _ known first second temp found =>
      have le : r.pc + 1 ≤ last := before
      have level := first.level short
      have level' := second.level short
      obtain ⟨covered, readable⟩ := ihl first after (by have := level'.1; omega) positive
      obtain ⟨covered', readable'⟩ := ihr second (by have := level.1; omega) (by omega) (by rw [level.2]; exact positive)
      refine ⟨(covered.append covered').append (.single found (.compute ?_ readable readable' temp.isStorage)),
        temp.readable⟩
      cases op <;> cases known <;> simp [Machine.Computes, Machine.arithmetic?]
    | @and _ _ _ _ q r _ _ _ first temp set jump second found =>
      have le : r.pc + 1 ≤ last := before
      have level := first.level short
      have fore : Level code q.pc (q.pc + 2) := (Level.step set rfl).trans (.step jump rfl)
      have level' : Level code (q.pc + 2) r.pc := second.level short
      have done : Level code r.pc (r.pc + 1) := .step found rfl
      have reaches : Reaches code entry last (q.pc + 1) (r.pc + 1) := by
        have set' := (Level.step set rfl).2
        exact ⟨by have := level.1; have := level'.1; omega, le, by rw [done.2, level'.2, fore.2, set']⟩
      obtain ⟨covered, readable⟩ := ihl first after (by have := level'.1; omega) positive
      obtain ⟨covered', readable'⟩ := ihr second (show entry < q.pc + 2 by have := level.1; omega) (by omega)
        (show 0 ≤ depth code (q.pc + 2) by rw [fore.2, level.2]; exact positive)
      refine ⟨?_, temp.readable⟩
      exact (covered.append (.single set (.assign (.inl rfl) temp.isStorage))).append
        ((Covered.single jump (.branch readable reaches)).append
          (covered'.append (.single found (.compute (.inl rfl) readable' (.inl rfl) temp.isStorage))))
    | @or _ _ _ _ q r _ _ _ _ first temp zero set test jump second found =>
      have le : r.pc + 1 ≤ last := before
      have level := first.level short
      have fore : Level code q.pc (q.pc + 2) := (Level.step set rfl).trans (.step test rfl)
      have fore' : Level code (q.pc + 2) (q.pc + 3) := .step jump rfl
      have level' : Level code (q.pc + 3) r.pc := second.level short
      have done : Level code r.pc (r.pc + 1) := .step found rfl
      have reaches : Reaches code entry last (q.pc + 2) (r.pc + 1) :=
        ⟨by have := level.1; have := level'.1; omega, le, by rw [done.2, level'.2, fore'.2]⟩
      obtain ⟨covered, readable⟩ := ihl first after (by have := level'.1; omega) positive
      obtain ⟨covered', readable'⟩ := ihr second (show entry < q.pc + 3 by have := level.1; omega) (by omega)
        (show 0 ≤ depth code (q.pc + 3) by rw [fore'.2, fore.2, level.2]; exact positive)
      refine ⟨?_, temp.readable⟩
      exact (covered.append (.single set (.assign (.inl rfl) temp.isStorage))).append
        ((Covered.single test (.compute (.inl rfl) readable (.inl rfl) zero.isStorage)).append
          ((Covered.single jump (.branch zero.readable reaches)).append
            (covered'.append (.single found (.compute (.inl rfl) readable' (.inl rfl) temp.isStorage)))))
  | assign line target value iht ihv =>
    cases h with
    | @assign _ _ _ _ q r _ _ place first second found =>
      have le : r.pc + 1 ≤ last := before
      have level := first.level short
      have level' := second.level short
      obtain ⟨covered, readable⟩ := iht first after (by have := level'.1; omega) positive
      obtain ⟨covered', readable'⟩ := ihv second (by have := level.1; omega) (by omega) (by rw [level.2]; exact positive)
      exact ⟨(covered.append covered').append (.single found (.assign readable' (first.isStorage homes place))), readable⟩

def TurnOk (code : Array Instruction) (entry last : Nat) (loop : Option Turn) : Prop :=
  ∀ turn ∈ loop, ∀ n, depth code n = 0 →
    Reaches code entry last n turn.start ∧ Reaches code entry last n turn.exit

theorem TurnOk.none : TurnOk code entry last none :=
  fun _ member => nomatch member

theorem homeOk_varHome {d : VarDecl} {location : Operand} (storage : location.isStorage = true)
    (direct : location.indirect = false) : HomeOk code (varHome d location) := by
  unfold varHome
  split
  · exact storage
  · exact ⟨storage, direct⟩

theorem VarsPlaced.layerOk {i : Nat} {vars : List VarDecl} {homes : Bindings Home}
    (placed : VarsPlaced frame i vars homes) : LayerOk code homes := by
  induction placed with
  | nil => exact .nil
  | cons _ _ _ _ ih => exact .cons (homeOk_varHome rfl rfl) ih

theorem StmtsCode.covered {result : TypeName} {loop : Option Turn} {body : List Stmt} {p q : Place}
    (short : code.size < 2 ^ 63) (homes : HomesOk code Γ) (turn : TurnOk code entry last loop)
    (each : ∀ s ∈ body, ∀ {loop : Option Turn} {Γ : Scoped Home} {p q : Place},
      StmtCode code frame result loop Γ s p q → HomesOk code Γ → TurnOk code entry last loop → entry < p.pc →
      q.pc ≤ last → depth code p.pc = 0 → Covered code entry last p.pc q.pc)
    (h : StmtsCode code frame result loop Γ body p q) (after : entry < p.pc) (before : q.pc ≤ last)
    (empty : depth code p.pc = 0) : Covered code entry last p.pc q.pc := by
  induction body generalizing p with
  | nil =>
    cases h
    exact .nil
  | cons s rest ih =>
    cases h with
    | cons first others =>
      have level := first.level short
      have level' := others.level fun s _ => StmtCode.level short s
      have covered := each s (by simp) first homes turn after (by have := level'.1; omega) empty
      exact covered.append (ih (fun s member => each s (by simp [member])) others (by have := level.1; omega)
        (by rw [level.2, empty]))

theorem StmtCode.covered (short : code.size < 2 ^ 63) {result : TypeName} (s : Stmt) {loop : Option Turn}
    {Γ : Scoped Home} {p q : Place} (h : StmtCode code frame result loop Γ s p q) (homes : HomesOk code Γ)
    (turn : TurnOk code entry last loop) (after : entry < p.pc) (before : q.pc ≤ last) (empty : depth code p.pc = 0) :
    Covered code entry last p.pc q.pc := by
  induction s using Stmt.induction generalizing loop Γ p q with
  | skipped => cases h
  | empty =>
    cases h
    exact .nil
  | expr e =>
    cases h with
    | expr first => exact (first.covered short homes e after before (by omega)).1
  | block vars body ih =>
    cases h with
    | block placed body =>
      have covered := body.covered short (homes.cons placed.layerOk) turn ih after before empty
      exact covered
  | ifThen line e body ih =>
    cases h with
    | @ifThen _ _ _ _ _ _ _ q r test jump first =>
      have level := test.level short
      have step : Level code q.pc (q.pc + 1) := .step jump rfl
      have level' : Level code (q.pc + 1) _ := first.level short
      obtain ⟨covered, readable⟩ := test.covered short homes e after (show q.pc ≤ last by have := level'.1; omega) (by omega)
      have covered' := ih first homes turn (show entry < q.pc + 1 by have := level.1; omega) before
        (show depth code (q.pc + 1) = 0 by rw [step.2, level.2, empty])
      have reaches : Reaches code entry last q.pc _ :=
        ⟨by have := level.1; have := level'.1; omega, before, by rw [level'.2, step.2]⟩
      exact (covered.append (.single jump (.branch readable reaches))).append covered'
  | ifElse line e body orElse ih ih' =>
    cases h with
    | @ifElse _ _ _ _ _ _ _ _ q r t test jump first skip second =>
      have level := test.level short
      have step : Level code q.pc (q.pc + 1) := .step jump rfl
      have level' : Level code (q.pc + 1) r.pc := first.level short
      have step' : Level code r.pc (r.pc + 1) := .step skip rfl
      have level'' : Level code (r.pc + 1) _ := second.level short
      have le := level.1
      have le' := level'.1
      have le'' := level''.1
      obtain ⟨covered, readable⟩ := test.covered short homes e after (show q.pc ≤ last by omega) (by omega)
      have covered' := ih first homes turn (show entry < q.pc + 1 by omega) (by omega)
        (show depth code (q.pc + 1) = 0 by rw [step.2, level.2, empty])
      have covered'' := ih' second homes turn (show entry < r.pc + 1 by omega) before
        (show depth code (r.pc + 1) = 0 by rw [step'.2, level'.2, step.2, level.2, empty])
      have reaches : Reaches code entry last q.pc (r.pc + 1) := ⟨by omega, by omega, by rw [step'.2, level'.2, step.2]⟩
      have reaches' : Reaches code entry last r.pc _ := ⟨by omega, before, by rw [level''.2, step'.2]⟩
      exact (covered.append (.single jump (.branch readable reaches))).append
        (covered'.append ((Covered.single skip (.jump reaches')).append covered''))
  | loop line e body ih =>
    cases h with
    | @loop _ _ _ _ _ _ _ q r test jump first back =>
      have level := test.level short
      have step : Level code q.pc (q.pc + 1) := .step jump rfl
      have level' : Level code (q.pc + 1) r.pc := first.level short
      have step' : Level code r.pc (r.pc + 1) := .step back rfl
      have le := level.1
      have le' := level'.1
      have le'' : r.pc + 1 ≤ last := before
      have body : depth code (q.pc + 1) = 0 := by rw [step.2, level.2, empty]
      have exit : depth code (r.pc + 1) = 0 := by rw [step'.2, level'.2, body]
      have around : TurnOk code entry last (some ⟨p.pc, r.pc + 1⟩) := by
        rintro _ ⟨⟩ n same
        exact ⟨⟨after, show p.pc ≤ last by omega, by rw [empty, same]⟩,
          ⟨show entry < r.pc + 1 by omega, le'', by rw [exit, same]⟩⟩
      obtain ⟨covered, readable⟩ := test.covered short homes e after (show q.pc ≤ last by omega) (by omega)
      have covered' := ih first homes around (show entry < q.pc + 1 by omega) (by omega) body
      have leaves := (around _ rfl q.pc (by rw [level.2, empty])).2
      have returns := (around _ rfl r.pc (by rw [level'.2, body])).1
      exact (covered.append (.single jump (.branch readable leaves))).append
        (covered'.append (.single back (.jump returns)))
  | ret line value =>
    cases h with
    | ret _ found => exact .single found (.ret (.inl rfl) empty)
    | @value _ _ _ _ _ _ q _ first found =>
      have le : q.pc + 1 ≤ last := before
      obtain ⟨covered, readable⟩ := first.covered short homes _ after (show q.pc ≤ last by omega) (by omega)
      exact covered.append (.single found (.ret (.inr readable) (by rw [(first.level short).2, empty])))
  | leave line =>
    cases h with
    | leave found => exact .single found (.jump (turn _ rfl _ empty).2)
  | again line =>
    cases h with
    | again found => exact .single found (.jump (turn _ rfl _ empty).1)

/-- Whether a function stands between two indices. It is entered with no argument pushed of its own,
    and it ends with a return. -/
structure Body (code : Array Instruction) (entry last : Nat) : Prop where
  enter : ∃ count, EntryAt code entry count
  empty : depth code (entry + 1) = 0
  covered : Covered code entry last (entry + 1) (last + 1)
  leave : code[last]? = some { op := .ret }
  ends : entry < last

theorem ParamsPlaced.layerOk {i : Nat} {params : List Param} {homes : Bindings Home}
    (placed : ParamsPlaced frame i params homes) : LayerOk code homes := by
  induction placed with
  | nil => exact .nil
  | @cons i type id isArray rest homes s found kind size placed ih =>
    refine .cons ?_ ih
    cases isArray with
    | false => exact rfl
    | true => exact ⟨rfl, rfl⟩

theorem ParamsPlaced.length_types {i : Nat} {params : List Param} {homes : Bindings Home}
    (placed : ParamsPlaced frame i params homes) : (Typing.paramTypes params).length = params.length := by
  induction placed with
  | nil => rfl
  | cons _ _ _ _ ih => exact congrArg (· + 1) ih

variable {globals : Bindings Home} {f : FunDecl} {fn : Function}

theorem FunctionCode.isEntry (h : FunctionCode code globals f fn entry last) :
    EntryAt code entry (Typing.paramTypes f.params.toList).length := by
  obtain ⟨params, vars, placed, _, _⟩ := h.body
  refine ⟨fn.frame.size, ?_⟩
  rw [placed.length_types, ← h.count]
  exact h.enter

theorem FunctionCode.bodyOk (short : code.size < 2 ^ 63) (homes : LayerOk code globals)
    (h : FunctionCode code globals f fn entry last) (empty : depth code entry = 0) :
    Body code entry last ∧ depth code (last + 1) = 0 := by
  obtain ⟨params, vars, placed, placed', body⟩ := h.body
  have inner : depth code (entry + 1) = 0 := by rw [(Level.step h.enter rfl).2, empty]
  have level : Level code (entry + 1) last := body.level fun s _ => StmtCode.level short s
  have done : depth code last = 0 := by rw [level.2, inner]
  have known : HomesOk code [params ++ vars, globals] := .cons (placed.layerOk.append placed'.layerOk) (.cons homes .nil)
  have covered : Covered code entry last (entry + 1) last :=
    body.covered short known TurnOk.none (fun s _ => StmtCode.covered short s)
      (Nat.lt_succ_self entry) (Nat.le_refl last) inner
  refine ⟨⟨⟨_, h.isEntry⟩, inner, covered.append (.single h.leave (.ret (.inl rfl) done)), h.leave, level.1⟩, ?_⟩
  rw [(Level.step h.leave rfl).2, done]

structure Tiled (code : Array Instruction) (functions : List Function) (m n : Nat) : Prop where
  le : m ≤ n
  starts : m = n ∨ ∃ count, EntryAt code m count
  bodies : ∀ f ∈ functions, ∃ entry last, f.entry = (entry : Nat) ∧ f.stop = (last + 1 : Nat) ∧
    Body code entry last ∧ (last + 1 = n ∨ ∃ count, EntryAt code (last + 1) count)
  inside : ∀ j, m ≤ j → j < n → ∃ f ∈ functions, f.entry ≤ j ∧ j < f.stop

theorem DeclsCode.tiled {final : Bindings Home} {pc stop : Nat} {data bound : Word} {decls : List Decl}
    {functions : List Function} (short : code.size < 2 ^ 63)
    (h : DeclsCode code globals pc data decls functions final stop bound) (homes : LayerOk code globals)
    (empty : depth code pc = 0) : Tiled code functions pc stop ∧ LayerOk code final := by
  induction h with
  | nil => exact ⟨⟨Nat.le_refl _, .inl rfl, by simp, fun j _ _ => by omega⟩, homes⟩
  | var rest ih => exact ih (homes.append (.cons (homeOk_varHome rfl rfl) .nil)) empty
  | @fn globals final pc last stop data bound f rest fn functions first others ih =>
    have homes' : LayerOk code (globals ++ [functionHome f pc]) := homes.append (.cons first.isEntry .nil)
    obtain ⟨body, empty'⟩ := first.bodyOk short homes' empty
    obtain ⟨tiled, known⟩ := ih homes' empty'
    have ends := body.ends
    refine ⟨⟨by have := tiled.le; omega, .inr body.enter, ?_, ?_⟩, known⟩
    · intro g member
      rcases List.mem_cons.mp member with rfl | member
      · exact ⟨pc, last, first.startsAt, first.endsAt, body, tiled.starts⟩
      · exact tiled.bodies g member
    · intro j after before
      by_cases earlier : j ≤ last
      · exact ⟨fn, by simp, by rw [first.startsAt]; omega, by rw [first.endsAt]; omega⟩
      · obtain ⟨g, member, bounds⟩ := tiled.inside j (by omega) before
        exact ⟨g, by simp [member], bounds⟩

end Translation

open Translation

structure Program.WellFormed (p : Program) : Prop where
  short : p.code.size < 2 ^ 63
  start : ∃ entry : Nat, p.code[0]? = some { op := .call, a1 := .label entry, a2 := .imm 0 } ∧ EntryAt p.code entry 0
  halt : p.code[1]? = some { op := .jp, a1 := .label p.code.size }
  tiled : Tiled p.code p.functions 2 p.code.size

namespace Program.WellFormed

variable {p : Program} {n : Nat} {i : Instruction}

theorem around (h : p.WellFormed) (after : 2 ≤ n) (before : n < p.code.size) :
    ∃ f ∈ p.functions, ∃ entry last, f.entry = (entry : Nat) ∧ f.stop = (last + 1 : Nat) ∧
      Body p.code entry last ∧ entry ≤ n ∧ n ≤ last := by
  obtain ⟨f, member, starts, ends⟩ := h.tiled.inside n after before
  obtain ⟨entry, last, isEntry, isStop, body, _⟩ := h.tiled.bodies f member
  exact ⟨f, member, entry, last, isEntry, isStop, body, by omega, by omega⟩

theorem entry_or_proper (h : p.WellFormed) (after : 2 ≤ n) (found : p.code[n]? = some i) :
    (∃ count, EntryAt p.code n count) ∨ ∃ entry last, last < p.code.size ∧ Proper p.code entry last n i := by
  have before := (Array.getElem?_eq_some_iff.mp found).1
  obtain ⟨f, _, entry, last, _, _, body, starts, ends⟩ := h.around after before
  rcases Nat.eq_or_lt_of_le starts with rfl | inside
  · exact .inl body.enter
  · obtain ⟨i', found', proper⟩ := body.covered n inside (by omega)
    rw [found] at found'
    cases found'
    exact .inr ⟨entry, last, (Array.getElem?_eq_some_iff.mp body.leave).1, proper⟩

theorem function_of_entry (h : p.WellFormed) {entry count : Nat} (isEntry : EntryAt p.code entry count) :
    ∃ f ∈ p.functions, f.entry = (entry : Nat) ∧ ∃ last, f.stop = (last + 1 : Nat) ∧ Body p.code entry last := by
  obtain ⟨size, found⟩ := isEntry
  have before := (Array.getElem?_eq_some_iff.mp found).1
  have after : 2 ≤ entry := by
    obtain ⟨main, start, _⟩ := h.start
    have halt := h.halt
    rcases entry with _ | _ | entry
    · rw [start] at found
      cases found
    · rw [halt] at found
      cases found
    · omega
  obtain ⟨f, member, entry', last, starts, ends, body, le, ge⟩ := h.around after before
  rcases Nat.eq_or_lt_of_le le with rfl | inside
  · exact ⟨f, member, starts, last, ends, body⟩
  · obtain ⟨i, found', proper⟩ := body.covered entry inside (by omega)
    rw [found] at found'
    cases found'
    cases proper with
    | compute known => simp [Machine.Computes, Machine.arithmetic?] at known

end Program.WellFormed

theorem Translation.ProgramCode.wellFormed {s : Source} {p : Program} {entry : Nat} {globals : Bindings Home}
    (h : ProgramCode s p entry globals) (short : p.code.size < 2 ^ 63) : p.WellFormed := by
  have empty : depth p.code 2 = 0 := by
    rw [depth_succ h.halt, depth_succ h.start]
    rfl
  obtain ⟨tiled, known⟩ := h.decls.tiled short (.cons trivial .nil) empty
  exact ⟨short, ⟨entry, h.start, known _ _ h.main⟩, h.halt, tiled⟩

end MiniC
