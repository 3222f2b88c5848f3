import MiniC.Proofs.Machine.Transitions

namespace MiniC.Machine

variable {m m' : Machine} {p : Program} {length : Nat}

def trail (p : Program) : Nat → Machine
  | 0 => { program := p }
  | n + 1 => Outcome.machine (step (trail p n))

def FaultFree (p : Program) (length : Nat) : Prop :=
  ∀ n < length, ∃ m, step (trail p n) = .ok () m

def Executes (m : Machine) (op : Opcode) : Prop :=
  ∃ i, m.program.fetch? m.pc = some i ∧ i.op = op

theorem Executes.unique {op op' : Opcode} (first : m.Executes op) (second : m.Executes op') : op = op' := by
  obtain ⟨i, fetched, known⟩ := first
  obtain ⟨j, fetched', known'⟩ := second
  rw [fetched] at fetched'
  cases fetched'
  exact known.symm.trans known'

inductive Balances (m m' : Machine) : Prop where
  | keeps : ¬ m.Executes .call → ¬ m.Executes .func → ¬ m.Executes .ret → m'.activations = m.activations →
      m'.calling = m.calling → Balances m m'
  | calls (result : Operand) : m.Executes .call → m'.activations = ⟨m.pc + 1, result, m.fp, m.sp, 0⟩ :: m.activations →
      m'.sp = m.sp → m'.Executes .func → Balances m m'
  | enters {top : Activation} {rest : List Activation} (params : Word) : m.Executes .func → m.calling = true →
      m.activations = top :: rest → m'.activations = { top with params := params } :: rest → m'.calling = false →
      m'.fp = m.sp → Balances m m'
  | returns {top : Activation} {rest : List Activation} : m.Executes .ret → m.activations = top :: rest →
      m'.activations = rest → m'.calling = m.calling → m'.pc = top.ret → m'.fp = top.fp → m'.sp = top.sp → Balances m m'

theorem balances_of_step (run : step m = .ok () m') : Balances m m' := by
  have made := transition m
  rw [run] at made
  cases made with
  | halts ended =>
    have none : ∀ op, ¬ m.Executes op := by
      rintro op ⟨i, fetched, _⟩
      have bounds := Program.bounds_of_fetch? fetched
      omega
    exact .keeps (none _) (none _) (none _) rfl rfl
  | @executes i _ fetched _ effect =>
    have other : ∀ op, i.op ≠ op → ¬ m.Executes op := by
      rintro op differs ⟨j, found, known⟩
      rw [fetched] at found
      cases found
      exact differs known
    cases effect with
    | plain _ _ _ _ own => exact .keeps (other _ own.1) (other _ own.2.1) (other _ own.2.2) rfl rfl
    | called _ known _ _ _ entry => exact .calls i.a3 ⟨i, fetched, known⟩ rfl rfl (Program.func_of_isEntry entry)
    | entered known calling _ active => exact .enters _ ⟨i, fetched, known⟩ calling active rfl rfl rfl
    | left known active => exact .returns ⟨i, fetched, known⟩ active rfl rfl rfl rfl rfl

namespace FaultFree

theorem balances (h : FaultFree p length) {n : Nat} (lt : n < length) : Balances (trail p n) (trail p (n + 1)) := by
  obtain ⟨m, run⟩ := h n lt
  apply balances_of_step
  rw [run, trail, run]
  rfl

/-- A call that waits for its function has been made by the step before, and the function is next. -/
theorem awaits (h : FaultFree p length) (n : Nat) (le : n ≤ length) (calling : (trail p n).calling = true) :
    (trail p n).Executes .func ∧ ∃ a, n = a + 1 ∧ (trail p a).Executes .call ∧ (trail p n).sp = (trail p a).sp := by
  induction n with
  | zero => cases calling
  | succ n ih =>
    cases h.balances le with
    | calls _ call _ sp func => exact ⟨func, n, rfl, call, sp⟩
    | keeps _ func _ _ same => exact absurd (ih (by omega) (same ▸ calling)).1 func
    | enters _ _ _ _ _ entered =>
      rw [entered] at calling
      cases calling
    | returns ret _ _ same =>
      have func := (ih (by omega) (same ▸ calling)).1
      cases ret.unique func

/-- The calls that have not returned after step `c`, while the one made at step `a` has not. -/
def Within (p : Program) (a c : Nat) : Prop :=
  ∃ inner result params, (trail p c).activations =
    inner ++ ⟨(trail p a).pc + 1, result, (trail p a).fp, (trail p a).sp, params⟩ :: (trail p a).activations

theorem Within.step (h : FaultFree p length) {a c : Nat} (lt : c < length) (within : Within p a c)
    (pending : (trail p c).Executes .ret → (trail p (c + 1)).activations.length ≠ (trail p a).activations.length) :
    Within p a (c + 1) := by
  obtain ⟨inner, result, params, active⟩ := within
  cases h.balances lt with
  | keeps _ _ _ same _ => exact ⟨inner, result, params, same.trans active⟩
  | calls result' _ pushed =>
    rw [active] at pushed
    exact ⟨_ :: inner, result, params, pushed⟩
  | @enters top rest params' _ _ found entered =>
    rw [active] at found
    cases inner with
    | nil =>
      cases found
      exact ⟨[], result, params', entered⟩
    | cons first inner =>
      cases found
      exact ⟨_ :: inner, result, params, entered⟩
  | returns ret found left =>
    rw [active] at found
    cases inner with
    | nil =>
      cases found
      exact absurd (congrArg List.length left) (pending ret)
    | cons first inner =>
      cases found
      exact ⟨inner, result, params, left⟩

/-- As long as no return gets back to the calls before a call, they stay as they are, below it. -/
theorem within (h : FaultFree p length) {a b : Nat} (lt : b ≤ length) (call : (trail p a).Executes .call) (later : a < b)
    (pending : ∀ c, a < c → c < b → (trail p c).Executes .ret →
      (trail p (c + 1)).activations.length ≠ (trail p a).activations.length) : Within p a b := by
  induction b, later using Nat.le_induction with
  | base =>
    cases h.balances lt with
    | calls result _ pushed => exact ⟨[], result, 0, pushed⟩
    | keeps other => exact absurd call other
    | enters _ func => cases call.unique func
    | returns ret => cases call.unique ret
  | succ b later ih =>
    refine (ih (by omega) fun c after before => pending c after (by omega)).step h lt ?_
    exact pending b later (Nat.lt_succ_self b)

end FaultFree

/-- In every run without a failure, the first return that gets back to the number of calls before a call
    goes on behind that call, with the frame and the calls that were there before it; and a function is
    entered by the step after a call only, with its frame where the stack ended at the call. -/
theorem balanced_of_faultFree {p : Program} {length : Nat} (h : FaultFree p length) :
    (∀ a b, a < b → b < length → (trail p a).Executes .call → (trail p b).Executes .ret →
      (trail p (b + 1)).activations.length = (trail p a).activations.length →
      (∀ c, a < c → c < b → (trail p c).Executes .ret →
        (trail p (c + 1)).activations.length ≠ (trail p a).activations.length) →
      (trail p (b + 1)).pc = (trail p a).pc + 1 ∧ (trail p (b + 1)).fp = (trail p a).fp ∧
        (trail p (b + 1)).sp = (trail p a).sp ∧ (trail p (b + 1)).activations = (trail p a).activations) ∧
    ∀ b < length, (trail p b).Executes .func →
      ∃ a, b = a + 1 ∧ (trail p a).Executes .call ∧ (trail p (b + 1)).fp = (trail p a).sp := by
  constructor
  · intro a b later lt call ret back first
    obtain ⟨inner, result, params, active⟩ := h.within lt.le call later first
    cases h.balances lt with
    | keeps _ _ other => exact absurd ret other
    | calls _ call' => cases ret.unique call'
    | enters _ func => cases ret.unique func
    | returns _ found left _ pc fp sp =>
      rw [active] at found
      cases inner with
      | nil =>
        cases found
        exact ⟨pc, fp, sp, left⟩
      | cons first inner =>
        -- A return from a call further in leaves one call more than there were.
        cases found
        rw [left] at back
        simp at back
        omega
  · intro b lt func
    cases h.balances lt with
    | keeps _ other => exact absurd func other
    | calls _ call => cases func.unique call
    | returns ret => cases func.unique ret
    | enters _ _ calling _ _ _ fp =>
      obtain ⟨_, a, rfl, call, sp⟩ := h.awaits b lt.le calling
      exact ⟨a, rfl, call, fp.trans sp⟩

def nested : Program :=
  { code := #[{ op := .call, a1 := .label 2, a2 := .imm 0 }, { op := .jp, a1 := .label 7 },
      { op := .func, a1 := .imm 8, a2 := .imm 0 }, { op := .call, a1 := .label 5, a2 := .imm 0 }, { op := .ret },
      { op := .func, a1 := .imm 4, a2 := .imm 0 }, { op := .ret }] }

theorem balanced_nested : FaultFree nested 6 ∧ (trail nested 5).Executes .ret ∧ (trail nested 6).pc = 1 ∧
    (trail nested 6).sp = stackBase ∧ ∃ a, 3 = a + 1 ∧ (trail nested a).Executes .call := by
  have free : FaultFree nested 6 := by
    intro n lt
    have cases : n = 0 ∨ n = 1 ∨ n = 2 ∨ n = 3 ∨ n = 4 ∨ n = 5 := by omega
    rcases cases with rfl | rfl | rfl | rfl | rfl | rfl <;> exact ⟨_, rfl⟩
  obtain ⟨returns, enters⟩ := balanced_of_faultFree free
  have first : ∀ c, 0 < c → c < 5 → (trail nested c).Executes .ret →
      (trail nested (c + 1)).activations.length ≠ (trail nested 0).activations.length := by
    intro c after before _
    have cases : c = 1 ∨ c = 2 ∨ c = 3 ∨ c = 4 := by omega
    rcases cases with rfl | rfl | rfl | rfl <;> decide
  have ret : (trail nested 5).Executes .ret := ⟨_, rfl, rfl⟩
  have back := returns 0 5 (by decide) (by decide) ⟨_, rfl, rfl⟩ ret rfl first
  obtain ⟨a, next, call, _⟩ := enters 3 (by decide) ⟨_, rfl, rfl⟩
  exact ⟨free, ret, back.1, back.2.2.1, a, next, call⟩

end MiniC.Machine
