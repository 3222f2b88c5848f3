import Mathlib.Data.List.Nodup
import MiniC.Proofs.Assembly.Emission

namespace MiniC

namespace Assembly

/-- The indices of the instructions that open a function. The first instruction has the index `n`. -/
def entries (n : Nat) (code : List Instruction) : List Nat :=
  ((code.zipIdx n).filter (·.1.op = .func)).map (·.2)

theorem entries_cons (n : Nat) (i : Instruction) (rest : List Instruction) :
    entries n (i :: rest) = (if i.op = .func then [n] else []) ++ entries (n + 1) rest := by
  unfold entries
  rw [List.zipIdx_cons, List.filter_cons]
  by_cases isFunc : i.op = .func <;> simp [isFunc]

theorem entries_nodup (n : Nat) (code : List Instruction) : (entries n code).Nodup := by
  have all : ((code.zipIdx n).map (·.2)).Nodup := by
    rw [List.zipIdx_map_snd]
    exact List.nodup_range'
  exact all.sublist (List.filter_sublist.map _)

theorem mem_entries {code : List Instruction} {k : Nat} :
    k ∈ entries 0 code ↔ ∃ i, code[k]? = some i ∧ i.op = .func := by
  simp only [entries, List.mem_map, List.mem_filter, decide_eq_true_eq]
  constructor
  · rintro ⟨⟨i, k⟩, ⟨member, isFunc⟩, rfl⟩
    exact ⟨i, List.mem_zipIdx_iff_getElem?.mp member, isFunc⟩
  · rintro ⟨i, found, isFunc⟩
    exact ⟨(i, k), ⟨List.mem_zipIdx_iff_getElem?.mpr found, isFunc⟩, rfl⟩

def landings (targets : List Int) (n : Nat) (code : List Instruction) : List Label :=
  ((List.range' n code.length).filter fun k : Nat => targets.contains (k : Int)).map fun k : Nat => .code k

def functionLabels (p : Program) (n : Nat) (code : List Instruction) : List Label :=
  (entries n code).map fun k : Nat => functionLabel p k

def epilogues (n : Nat) (code : List Instruction) : List Label :=
  (entries n code).map fun k : Nat => .epilogue k

section Cons

variable (n : Nat) (i : Instruction) (rest : List Instruction)

theorem landings_cons (targets : List Int) :
    landings targets n (i :: rest) = (if targets.contains (n : Int) then [.code n] else []) ++
      landings targets (n + 1) rest := by
  unfold landings
  rw [List.length_cons, List.range'_succ, List.filter_cons]
  split <;> rfl

theorem functionLabels_cons (p : Program) :
    functionLabels p n (i :: rest) = (if i.op = .func then [functionLabel p n] else []) ++
      functionLabels p (n + 1) rest := by
  unfold functionLabels
  rw [entries_cons, List.map_append]
  split <;> rfl

theorem epilogues_cons :
    epilogues n (i :: rest) = (if i.op = .func then [.epilogue n] else []) ++ epilogues (n + 1) rest := by
  unfold epilogues
  rw [entries_cons, List.map_append]
  split <;> rfl

end Cons

def Label.isLocal : Label → Bool
  | symbol _ => false
  | _ => true

theorem isLocal_functionLabel (p : Program) (entry : Int) : (functionLabel p entry).isLocal = false := by
  unfold functionLabel
  split <;> rfl

def Context.pending (c : Context) : List Label :=
  c.function.toList.map fun f => .epilogue f.entry

theorem closeFunction_pending (n : Nat) (c : Context) :
    (closeFunction n c).1.filterMap Line.defines? ++ (closeFunction n c).2.pending = c.pending := by
  unfold closeFunction
  split
  · next f holds =>
    split
    · have own : (epilogueLines f c.frame).filterMap Line.defines? = [.epilogue f.entry] := by
        unfold epilogueLines
        dsimp only
        split <;> rfl
      rw [own]
      simp [Context.pending, holds]
    · rfl
  · rfl

def upToFunction (code : List Instruction) : Nat :=
  (code.takeWhile (·.op ≠ .func)).length

theorem upToFunction_of_ne {i : Instruction} (other : i.op ≠ .func) (rest : List Instruction) :
    upToFunction (i :: rest) = upToFunction rest + 1 := by
  simp [upToFunction, other]

theorem upToFunction_of_eq {i : Instruction} (isFunc : i.op = .func) (rest : List Instruction) :
    upToFunction (i :: rest) = 0 := by
  simp [upToFunction, isFunc]

theorem drop_succ {α : Type} {l : List α} {n : Nat} {a : α} {rest : List α} (suffix : l.drop n = a :: rest) :
    l.drop (n + 1) = rest := by
  rw [← List.tail_drop, suffix]
  rfl

/-- Whether the functions of a program reach from their first instruction up to the next function. -/
def Delimited (p : Program) : Prop :=
  ∀ f ∈ p.functions, ∃ e : Nat, f.entry = e ∧ f.stop = (e + 1 + upToFunction (p.code.toList.drop (e + 1)) : Nat)

/-- Whether the function of a context, if there is one, reaches up to the next function. -/
def Reaches (n : Nat) (rest : List Instruction) (c : Context) : Prop :=
  ∀ f, c.function = some f → f.stop = (n + upToFunction rest : Nat)

structure Encloses (n : Nat) (rest : List Instruction) (c : Context) : Prop where
  reaches : Reaches n rest c
  within : ∀ f, c.function = some f → n < f.stop

theorem Reaches.closed {n : Nat} {rest : List Instruction} {c : Context} (h : Reaches (n + 1) rest c) :
    Encloses (n + 1) rest (closeFunction n c).2 := by
  unfold closeFunction
  split
  · next f holds =>
    have stop := h f holds
    split
    · constructor <;> (intro f none; cases none)
    · refine ⟨h, fun g same => ?_⟩
      obtain rfl : f = g := by
        rw [holds] at same
        exact Option.some.inj same
      omega
  · next outside =>
    refine ⟨h, fun f same => ?_⟩
    rw [outside] at same
    cases same

theorem Encloses.outside (code : List Instruction) : Encloses 0 code {} := by
  constructor
  · intro f none
    cases none
  · intro f none
    cases none

theorem Encloses.pending_eq_nil {n : Nat} {c : Context} (h : Encloses n [] c) : c.pending = [] := by
  cases around : c.function with
  | none => simp [Context.pending, around]
  | some f =>
    have stop := h.reaches f around
    have inside := h.within f around
    simp [upToFunction] at stop
    omega

namespace Step

variable {p : Program} {n : Nat} {c : Context} {i : Instruction} (s : Step p n c i)

theorem defines (targets : List Int) :
    (s.lines targets).filterMap Line.defines? =
      (if i.op = .func then [functionLabel p n] else []) ++ (if targets.contains (n : Int) then [.code n] else []) ++
        (closeFunction n s.inner).1.filterMap Line.defines? := by
  have opening : s.opening.filterMap Line.defines? = if i.op = .func then [functionLabel p n] else [] := by
    rcases s.opening_cases with ⟨other, none, _⟩ | ⟨isFunc, opening, _⟩
    · rw [none, if_neg other]
      rfl
    · rw [opening, if_pos isFunc]
      rfl
  have label : (landing targets n).filterMap Line.defines? = if targets.contains (n : Int) then [.code n] else [] := by
    unfold landing
    split <;> rfl
  have own : (.source n i :: s.own).filterMap Line.defines? = [] := by
    obtain ⟨is, lines, _⟩ := lines_of_instructionLines s.lowers
    simp [lines, Line.defines?]
  rw [lines, List.append_assoc, List.append_assoc, List.filterMap_append, List.filterMap_append,
    List.filterMap_append, opening, label, own]
  simp

theorem names (targets : List Int) {l : Label} (member : l ∈ (s.lines targets).filterMap Line.names?) :
    Names p i s.inner.function l := by
  obtain ⟨is, lines, named⟩ := lines_of_instructionLines s.lowers
  have opening : s.opening.filterMap Line.names? = [] := by
    rcases s.opening_cases with ⟨_, none, _⟩ | ⟨_, opening, _⟩
    · rw [none]
      rfl
    · rw [opening]
      rfl
  have label : (landing targets n).filterMap Line.names? = [] := by
    unfold landing
    split <;> rfl
  have closing : (closeFunction n s.inner).1.filterMap Line.names? = [] := by
    unfold closeFunction epilogueLines
    dsimp only
    split
    · split
      · split <;> rfl
      · rfl
    · rfl
  simp only [Step.lines, lines, List.append_assoc, List.cons_append, List.filterMap_append, List.filterMap_cons, Line.names?,
    opening, label, closing, List.nil_append, List.append_nil, List.mem_filterMap, List.mem_map] at member
  obtain ⟨_, ⟨j, member, rfl⟩, known⟩ := member
  exact named j member l known

variable {s} {rest : List Instruction} (delimited : Delimited p) (suffix : p.code.toList.drop n = i :: rest)
  (encloses : Encloses n (i :: rest) c)

include delimited suffix encloses

theorem opened : s.inner.pending = c.pending ++ (if i.op = .func then [.epilogue n] else []) ∧
    Reaches (n + 1) rest s.inner := by
  rcases s.opening_cases with ⟨other, _, same⟩ | ⟨isFunc, _, f, found, holds⟩
  · rw [same, if_neg other, List.append_nil]
    refine ⟨rfl, fun f holds => ?_⟩
    rw [encloses.reaches f holds, upToFunction_of_ne other]
    omega
  · have outside : c.function = none := by
      cases around : c.function with
      | none => rfl
      | some g =>
        have stop := encloses.reaches g around
        rw [upToFunction_of_eq isFunc] at stop
        have inside := encloses.within g around
        omega
    have starts : f.entry = n := by simpa using List.find?_some found
    obtain ⟨e, entry, stop⟩ := delimited f (List.mem_of_find?_eq_some found)
    obtain rfl : e = n := by omega
    rw [drop_succ suffix] at stop
    refine ⟨by simp [Context.pending, holds, outside, isFunc, entry], fun g same => ?_⟩
    rw [holds] at same
    cases same
    exact stop

end Step

section Body

variable {p : Program} {targets : List Int} {n : Nat} {c : Context} {rest : List Instruction} {out : List Line}

theorem defines_body (delimited : Delimited p) (suffix : p.code.toList.drop n = rest) (encloses : Encloses n rest c)
    (lowered : body p targets n c rest = .ok out) :
    (out.filterMap Line.defines?).Perm
      (landings targets n rest ++ functionLabels p n rest ++ (c.pending ++ epilogues n rest)) := by
  induction rest generalizing n c out with
  | nil =>
    cases lowered
    rw [encloses.pending_eq_nil]
    exact .nil
  | cons i rest ih =>
    obtain ⟨s, later, remains, rfl⟩ := body_cons lowered
    obtain ⟨pending, reaches⟩ := Step.opened (s := s) delimited suffix encloses
    have others := ih (drop_succ suffix) reaches.closed remains
    rw [List.filterMap_append, s.defines, landings_cons, functionLabels_cons, epilogues_cons, ← List.append_assoc c.pending,
      ← pending, ← closeFunction_pending n s.inner]
    -- Both sides have the same parts in another order.
    rw [List.perm_iff_count] at others ⊢
    intro l
    have count := others l
    simp only [List.count_append] at count ⊢
    omega

/-- The labels that are named. The epilogues are those of functions that are open or follow. -/
theorem names_body (delimited : Delimited p) (suffix : p.code.toList.drop n = rest) (encloses : Encloses n rest c)
    (lowered : body p targets n c rest = .ok out) {l : Label} (named : l ∈ out.filterMap Line.names?) :
    l ∈ c.pending ++ epilogues n rest ∨ ∃ i ∈ rest, Names p i none l := by
  induction rest generalizing n c out with
  | nil =>
    cases lowered
    cases named
  | cons i rest ih =>
    obtain ⟨s, later, remains, rfl⟩ := body_cons lowered
    obtain ⟨pending, reaches⟩ := Step.opened (s := s) delimited suffix encloses
    rw [epilogues_cons, ← List.append_assoc, ← pending]
    rw [List.filterMap_append, List.mem_append] at named
    rcases named with named | named
    · cases s.names targets named with
      | epilogue holds => exact .inl (by simp [Context.pending, holds])
      | data => exact .inr ⟨i, by simp, .data⟩
      | format => exact .inr ⟨i, by simp, .format⟩
      | printf => exact .inr ⟨i, by simp, .printf⟩
      | target known => exact .inr ⟨i, by simp, .target known⟩
      | callee known => exact .inr ⟨i, by simp, .callee known⟩
    · rcases ih (drop_succ suffix) reaches.closed remains named with member | ⟨j, member, names⟩
      · refine .inl ?_
        rw [← closeFunction_pending n s.inner]
        simp only [List.mem_append] at member ⊢
        exact member.imp_left .inr
      · exact .inr ⟨j, by simp [member], names⟩

end Body

def jumped (p : Program) : List Int :=
  p.code.toList.filterMap fun i => (target? i).map Int64.toInt

section Program

variable {p : Program} {lines : List Line}

theorem lower_cases (lowered : lower p = .ok lines) :
    firstTargetError? p 0 p.code.toList = none ∧
      ∃ out, body p (jumped p) 0 {} p.code.toList = .ok out ∧ lines = header ++ out ++ footer p := by
  unfold lower at lowered
  cases found : firstTargetError? p 0 p.code.toList with
  | some e =>
    simp only [found] at lowered
    cases lowered
  | none =>
    simp only [found] at lowered
    change (body p (jumped p) 0 {} p.code.toList >>= fun out => pure (header ++ out ++ footer p)) = _ at lowered
    cases remains : body p (jumped p) 0 {} p.code.toList with
    | error e =>
      rw [remains] at lowered
      cases lowered
    | ok out =>
      rw [remains] at lowered
      cases lowered
      exact ⟨rfl, out, rfl, rfl⟩

theorem split_lower (lowered : lower p = .ok lines) {n : Nat} {i : Instruction} (found : p.code[n]? = some i) :
    ∃ (c : Context) (s : Step p n c i) (before after : List Line), lines = before ++ (s.lines (jumped p) ++ after) ∧
      Pauses after := by
  obtain ⟨_, out, lowers, rfl⟩ := lower_cases lowered
  have split := split_body lowers (i := i) (k := n) (by simpa using found)
  rw [Nat.zero_add] at split
  obtain ⟨c, s, before, later, rfl, remains⟩ := split
  refine ⟨c, s, header ++ before, later ++ footer p, by simp, (pauses_body remains).append ?_⟩
  simp [Pauses, footer]

theorem targetError?_of_mem {n : Nat} {code : List Instruction} (fine : firstTargetError? p n code = none) {i : Instruction}
    (member : i ∈ code) : ∃ k, targetError? p k i = none := by
  induction code generalizing n with
  | nil => cases member
  | cons j rest ih =>
    rw [firstTargetError?] at fine
    split at fine
    · cases fine
    · next first =>
      rcases List.mem_cons.mp member with rfl | member
      · exact ⟨n, first⟩
      · exact ih fine member

theorem target_bounds (fine : firstTargetError? p 0 p.code.toList = none) {i : Instruction} (member : i ∈ p.code.toList)
    {t : Word} (known : target? i = some t) :
    0 ≤ t.toInt ∧ t.toInt ≤ p.code.size ∧ (i.op = .call → p.isEntry t.toInt = true) := by
  obtain ⟨k, fine⟩ := targetError?_of_mem fine member
  simp only [targetError?, known] at fine
  split at fine
  · cases fine
  · next inside =>
    split at fine
    · cases fine
    · next called =>
      refine ⟨by omega, by omega, fun call => ?_⟩
      simpa [call] using called

def localLabels (p : Program) : List Label :=
  landings (jumped p) 0 p.code.toList ++ epilogues 0 p.code.toList ++ [.code p.code.size, .format]

def symbols (p : Program) : List Label :=
  mainLabel :: functionLabels p 0 p.code.toList ++ [dataLabel]

variable (delimited : Delimited p) (lowered : lower p = .ok lines)

include delimited lowered

theorem defines_lines : (lines.filterMap Line.defines?).Perm (localLabels p ++ symbols p) := by
  obtain ⟨_, out, body, rfl⟩ := lower_cases lowered
  have defined := defines_body delimited List.drop_zero (.outside _) body
  have first : header.filterMap Line.defines? = [mainLabel] := rfl
  have last : (footer p).filterMap Line.defines? = [.code p.code.size, dataLabel, .format] := rfl
  have pending : ({} : Context).pending = [] := rfl
  rw [List.filterMap_append, List.filterMap_append, first, last, localLabels, symbols]
  rw [List.perm_iff_count] at defined ⊢
  intro l
  have count := defined l
  simp only [pending, List.nil_append, List.count_append, List.count_cons, List.count_nil] at count ⊢
  omega

theorem names_lines {l : Label} (named : l ∈ lines.filterMap Line.names?) :
    l ∈ epilogues 0 p.code.toList ∨ ∃ i ∈ p.code.toList, Names p i none l := by
  obtain ⟨_, out, body, rfl⟩ := lower_cases lowered
  have first : header.filterMap Line.names? = [] := rfl
  have last : (footer p).filterMap Line.names? = [] := rfl
  rw [List.filterMap_append, List.filterMap_append, first, last, List.nil_append, List.append_nil] at named
  exact names_body delimited List.drop_zero (.outside _) body named

theorem mem_localLabels {l : Label} (named : l ∈ lines.filterMap Line.names?) (isLocal : l.isLocal = true) :
    l ∈ localLabels p := by
  obtain ⟨fine, _⟩ := lower_cases lowered
  rcases names_lines delimited lowered named with member | ⟨i, member, names⟩
  · simp [localLabels, member]
  · cases names with
    | data | printf => cases isLocal
    | format => simp [localLabels]
    | callee =>
      rw [isLocal_functionLabel] at isLocal
      cases isLocal
    | epilogue holds => cases holds
    | @target t known =>
      obtain ⟨low, high, _⟩ := target_bounds fine member known
      by_cases behind : t.toInt = p.code.size
      · simp [localLabels, behind]
      · obtain ⟨k, same⟩ := Int.eq_ofNat_of_zero_le low
        have jumps : t.toInt ∈ jumped p := List.mem_filterMap.mpr ⟨i, member, by rw [known]; rfl⟩
        have landing : Label.code t.toInt ∈ landings (jumped p) 0 p.code.toList := by
          rw [same] at jumps ⊢
          refine List.mem_map.mpr ⟨k, ?_, rfl⟩
          simp [jumps]
          omega
        simp [localLabels, landing]

end Program

theorem localLabels_nodup (p : Program) : (localLabels p).Nodup := by
  have codes : (landings (jumped p) 0 p.code.toList).Nodup :=
    (List.Nodup.sublist List.filter_sublist List.nodup_range').map fun a b same => by injection same; omega
  have ends : (epilogues 0 p.code.toList).Nodup :=
    (entries_nodup _ _).map fun a b same => by injection same; omega
  have apart : List.Disjoint (landings (jumped p) 0 p.code.toList) (epilogues 0 p.code.toList) := by
    intro l first second
    obtain ⟨_, _, rfl⟩ := List.mem_map.mp first
    obtain ⟨_, _, same⟩ := List.mem_map.mp second
    cases same
  refine (codes.append ends apart).append (by simp) fun l first second => ?_
  rcases List.mem_append.mp first with member | member
  · obtain ⟨k, index, rfl⟩ := List.mem_map.mp member
    have before := List.mem_range'_1.mp (List.mem_of_mem_filter index)
    rw [Array.length_toList] at before
    simp at second
    omega
  · obtain ⟨k, _, rfl⟩ := List.mem_map.mp member
    simp at second

theorem isLocal_of_mem_localLabels {p : Program} {l : Label} (member : l ∈ localLabels p) : l.isLocal = true := by
  simp only [localLabels, landings, epilogues, List.mem_append, List.mem_map, List.mem_cons, List.not_mem_nil,
    or_false] at member
  rcases member with (⟨_, _, rfl⟩ | ⟨_, _, rfl⟩) | rfl | rfl <;> rfl

theorem isLocal_of_mem_symbols {p : Program} {l : Label} (member : l ∈ symbols p) : l.isLocal = false := by
  simp only [symbols, functionLabels, List.cons_append, List.mem_cons, List.mem_append, List.mem_map, List.not_mem_nil,
    or_false] at member
  rcases member with rfl | ⟨_, _, rfl⟩ | rfl
  · rfl
  · exact isLocal_functionLabel _ _
  · rfl

end Assembly

end MiniC
