import MiniC.Proofs.Preservation.Stmt

namespace MiniC

open Reference (Block Store Halt Denotation)
open Translation (Temp BaseCode ExprCode ArgsCode ParamsPlaced Place)

theorem Spans.push {A : Layout} {level : Nat} {b : Block} {length k slot : Nat} {a : Area}
    (spans : Spans A level b length k slot) : Spans (A.push level a) (level + 1) b length k slot := by
  refine ⟨Nat.le_succ_of_le spans.le, ?_, ?_⟩
  · rw [Layout.push_of_le spans.le]
    exact spans.role
  · rw [Layout.push_of_le spans.le]
    exact spans.size

/-- Whether words stand for what is passed to parameters of the given types. -/
inductive Passed (A : Layout) (level : Nat) : List Ty → List Denotation → List Word → Prop where
  | nil : Passed A level [] [] []
  | word {w : Word} {types : List Ty} {values : List Denotation} {words : List Word} :
    Passed A level types values words → Passed A level (.int :: types) (.word w :: values) (w :: words)
  | array {b : Block} {length k slot : Nat} {types : List Ty} {values : List Denotation} {words : List Word} :
    Spans A level b length k slot → Passed A level types values words →
      Passed A level (.array :: types) (.array b length :: values) (.ofNat (A.address ⟨k, slot, 0⟩) :: words)

namespace Passed

variable {A : Layout} {level : Nat} {types : List Ty} {values : List Denotation} {words : List Word}

theorem length_eq (h : Passed A level types values words) : words.length = types.length := by
  induction h with
  | nil => rfl
  | word _ ih | array _ _ ih => exact congrArg (· + 1) ih

theorem push {a : Area} (h : Passed A level types values words) :
    Passed (A.push level a) (level + 1) types values words := by
  induction h with
  | nil => exact .nil
  | word _ ih => exact .word ih
  | @array b length k slot _ _ _ spans _ ih =>
    have same : (A.push level a).address ⟨k, slot, 0⟩ = A.address ⟨k, slot, 0⟩ := Layout.address_push spans.le
    rw [← same]
    exact .array spans.push ih

end Passed

section Arguments

variable {B : Build} {n : Nat} {A : Layout} {level top : Nat} {params : List Param} {frame : List Slot} {Γ : Scoped Home}
  {env : Reference.Env} {σ : Store} {m : Machine}

structure Pushed (B : Build) (A : Layout) (level top : Nat) (types : List Ty) (p q : Place) (m : Machine)
    (values : List Denotation) (σ : Store) (m' : Machine) : Prop where
  pc : m'.pc = q.pc
  agrees : Agrees B A level top σ m'
  keeps : A.Keeps level p.slot q.slot m.memory m'.memory
  activations : m'.activations = m.activations
  args : ∃ words, m'.args.toList = m.args.toList ++ words ∧ Passed A level types values words

structure Adds (w : Word) (m m' : Machine) : Prop where
  memory : m'.memory = m.memory
  activations : m'.activations = m.activations
  args : m'.args = m.args.push w

theorem Follows.push {α : Type} {post : α → Store → Machine → Prop} {outcome : EStateM.Result Halt Store α} {k : Nat}
    {x : Operand} (agrees : Agrees B A level top σ m) (pc : m.pc = k)
    (here : B.program.code[k]? = some { op := .param, a1 := x }) (readable : x.Readable)
    (later : ∀ m' : Machine, m'.pc = (k + 1 : Nat) → Agrees B A level top σ m' → Adds (m.word x) m m' →
      Follows m' post outcome) : Follows m post outcome := by
  refine .step agrees.running (Machine.step_param (agrees.at pc here) readable) rfl (later _ rfl ?_ ⟨rfl, rfl, rfl⟩)
  exact ⟨agrees.program, agrees.running, agrees.fp, agrees.sp, agrees.cells, agrees.output⟩

theorem Pushed.cons {type : Ty} {types : List Ty} {d : Denotation} {values : List Denotation} {w : Word} {p q r : Place}
    {m₁ m₂ m' : Machine} (rest : Pushed B A level top types q r m₂ values σ m') (adds : Adds w m₁ m₂)
    (stays : Stays A level p.slot q.slot m m₁) (le : p.slot ≤ q.slot) (le' : q.slot ≤ r.slot)
    (front : ∀ words, Passed A level types values words → Passed A level (type :: types) (d :: values) (w :: words)) :
    Pushed B A level top (type :: types) p r m (d :: values) σ m' := by
  obtain ⟨words, args, passed⟩ := rest.args
  refine ⟨rest.pc, rest.agrees, ?_, rest.activations.trans (adds.activations.trans stays.activations), w :: words, ?_,
    front words passed⟩
  · have keeps := rest.keeps
    rw [adds.memory] at keeps
    exact (stays.keeps.mono (Nat.le_refl _) le').trans (keeps.mono le (Nat.le_refl _))
  · rw [args, adds.args, stays.args, Array.toList_push, List.append_assoc]
    rfl

theorem follows_arguments {args : List Expr} {types : List Ty} {p q : Place} (ih : ∀ k ≤ n, ExprFaithful B k)
    (h : CallFrame B A level top params frame) (reads : Reads B A level m.memory Γ env)
    (code : ArgsCode B.program.code frame Γ args p types q) (pc : m.pc = p.pc) (agrees : Agrees B A level top σ m) :
    Follows m (Pushed B A level top types p q m)
      ((Reference.arguments B.names B.size n ⟨env, level, top⟩ args).run σ) := by
  induction args generalizing n p types m σ with
  | nil =>
    cases code
    cases n with
    | zero => trivial
    | succ n => exact .ok ⟨pc, agrees, .refl, rfl, [], (List.append_nil _).symm, .nil⟩
  | cons e rest ihr =>
    cases n with
    | zero => trivial
    | succ n =>
    have later : ∀ k ≤ n, ExprFaithful B k := fun k le => ih k (Nat.le_succ_of_le le)
    simp only [Reference.arguments]
    cases code with
    | @word _ _ _ r _ x types first here others =>
      have le' : r.slot ≤ q.slot := (others.temps fun e _ => ExprCode.temps e).1
      refine (later n (Nat.le_refl n) h reads first pc agrees).bind fun d σ₁ m₁ done => ?_
      refine (done.holds.passed h done.agrees).bind ?_
      rintro _ _ _ ⟨rfl, rfl, rfl⟩
      refine .push done.agrees done.pc here (done.holds.readable h) fun m₂ pc₂ agrees₂ adds => ?_
      have reads₂ := reads.keep done.stays.keeps
      rw [← adds.memory] at reads₂
      refine (ihr later reads₂ others pc₂ agrees₂).bind fun values σ₃ m₃ pushed => .ok ?_
      exact pushed.cons adds done.stays first.temps.1 le' fun words passed => .word passed
    | @array id _ _ r _ o base isParam types found address here others =>
      have le' : r.slot ≤ q.slot := (others.temps fun e _ => ExprCode.temps e).1
      cases n with
      | zero => trivial
      | succ n =>
      obtain ⟨b, length, found', m₁, runs, based⟩ := runs_base h reads found address pc agrees
      obtain ⟨k, slot, spans, points⟩ := based.points
      simp only [Reference.expr, found']
      -- An array takes no step of its own: its name denotes it, and the code only finds its address.
      refine .after runs (.push based.agrees based.pc here based.readable fun m₂ pc₂ agrees₂ adds => ?_)
      have reads₂ := reads.keep based.stays.keeps
      rw [← adds.memory] at reads₂
      refine (ihr later reads₂ others pc₂ agrees₂).bind fun values σ₃ m₃ pushed => .ok ?_
      refine pushed.cons adds based.stays address.temps.1 le' fun words passed => ?_
      rw [points]
      exact .array spans passed

end Arguments

theorem Area.cell_of_role {level base : Nat} {params : List Param} {frame : List Slot} {i : Nat} {b : Block}
    (role : (Area.ofCall level base params frame).role i = .cell b) :
    ∃ s, frame[i]? = some s ∧
      (s.kind = .param ∧ b = .param level i ∨ s.kind = .var ∧ b = .var level (declaration frame i)) := by
  simp only [Area.ofCall] at role
  split at role
  · cases role
  · next s found =>
    refine ⟨s, found, ?_⟩
    split at role
    · next kind =>
      split at role
      · cases role
      · exact .inl ⟨kind, (Role.cell.inj role).symm⟩
    · next kind => exact .inr ⟨kind, (Role.cell.inj role).symm⟩
    · cases role
    · cases role

theorem declaration_mono (frame : List Slot) {i j : Nat} (le : i ≤ j) : declaration frame i ≤ declaration frame j :=
  (List.take_prefix_take_left le).sublist.countP_le

theorem declaration_injective {frame : List Slot} {i j : Nat} {s t : Slot} (found : frame[i]? = some s)
    (found' : frame[j]? = some t) (kind : s.kind = .var) (kind' : t.kind = .var)
    (same : declaration frame i = declaration frame j) : i = j := by
  have next := Translation.declaration_succ found
  have next' := Translation.declaration_succ found'
  rw [if_pos kind] at next
  rw [if_pos kind'] at next'
  rcases Nat.lt_trichotomy i j with lt | equal | lt
  · have := declaration_mono frame (show i + 1 ≤ j from lt)
    omega
  · exact equal
  · have := declaration_mono frame (show j + 1 ≤ i from lt)
    omega

section Frames

variable {B : Build} {A : Layout} {level top entry last : Nat} {f : FunDecl} {fn : Function} {globals : Bindings Home}

theorem Area.owned_ofCall {base : Nat} {params : List Param} {frame : List Slot} (i : Nat) (b : Block)
    (role : (Area.ofCall level base params frame).role i = .cell b) : Block.level b = level := by
  obtain ⟨_, _, ⟨_, rfl⟩ | ⟨_, rfl⟩⟩ := Area.cell_of_role role <;> rfl

theorem Area.distinct_ofCall {base : Nat} {params : List Param} {frame : List Slot} (i j : Nat) (b : Block)
    (role : (Area.ofCall level base params frame).role i = .cell b)
    (role' : (Area.ofCall level base params frame).role j = .cell b) : i = j := by
  obtain ⟨s, found, ⟨_, rfl⟩ | ⟨kind, rfl⟩⟩ := Area.cell_of_role role
  · obtain ⟨_, _, ⟨_, same⟩ | ⟨_, same⟩⟩ := Area.cell_of_role role'
    · exact (Block.param.inj same).2
    · cases same
  · obtain ⟨t, found', ⟨_, same⟩ | ⟨kind', same⟩⟩ := Area.cell_of_role role'
    · cases same
    · exact declaration_injective found found' kind kind' (Block.var.inj same).2

def Layout.enter (A : Layout) (level top : Nat) (f : FunDecl) (fn : Function) : Layout :=
  A.push level (.ofCall (level + 1) top f.params.toList fn.frame.slots)

theorem Grounded.enter (h : Grounded B A level top) (function : FunctionAt B entry f fn last globals)
    (room : top + B.size f.id.name < 2 ^ 63) :
    CallFrame B (A.enter level top f fn) (level + 1) (top + B.size f.id.name) f.params.toList fn.frame.slots := by
  have own : A.enter level top f fn (level + 1) = .ofCall (level + 1) top f.params.toList fn.frame.slots := Layout.push_self
  have ends : (Area.ofCall (level + 1) top f.params.toList fn.frame.slots).top = top + B.size f.id.name := by
    rw [← function.sum]
    rfl
  refine ⟨⟨?_, ?_, ?_⟩, ?_, function.offsets⟩
  · exact h.sound.push h.ends (by rw [ends]; exact room) Area.owned_ofCall Area.distinct_ofCall
  · exact (Layout.push_of_le (Nat.zero_le _)).trans h.data
  · rw [own, ends]
  · rw [own]
    rfl

end Frames

theorem getElem?_of_drop {α : Type} {l rest : List α} {a : α} {i : Nat} (h : l.drop i = a :: rest) :
    l[i]? = some a ∧ l.drop (i + 1) = rest := by
  rw [← List.head?_drop, ← List.tail_drop, h]
  exact ⟨rfl, rfl⟩

section Parameters

variable {B : Build} {A : Layout} {level top : Nat} {all : List Param} {frame : List Slot} {i : Nat} {homes : Bindings Home}

/-- The slot of a parameter: it is a word, and the evaluation sees it unless it is an array. -/
structure ParamSlot (A : Layout) (level i : Nat) (isArray : Bool) : Prop where
  live : A.Live level ⟨level, i, 0⟩
  role : A.role ⟨level, i, 0⟩ = if isArray then .pointer else .cell (.param level i)
  next : A.address ⟨level, i + 1, 0⟩ = A.address ⟨level, i, 0⟩ + 4

theorem CallFrame.paramSlot {type : TypeName} {id : Ident} {isArray : Bool} {s : Slot}
    (h : CallFrame B A level top all frame) (param : all[i]? = some (.named type id isArray)) (found : frame[i]? = some s)
    (kind : s.kind = .param) (size : s.size = wordSize) : ParamSlot A level i isArray := by
  have size' : (A level).sizes[i]? = some 4 := by
    rw [h.size found, size]
    rfl
  refine ⟨⟨Nat.le_refl _, 4, size', Nat.le_refl _⟩, ?_, ?_⟩
  · simp only [Layout.role]
    rw [h.area]
    simp only [Area.ofCall, found, kind, isArrayParam, param, Option.any_some]
  · simp only [Layout.address]
    rw [Area.offset_succ size']
    omega

/-- What is so when the words from a slot on have been written to the frame of a call. -/
structure Received (B : Build) (A : Layout) (level i : Nat) (homes : Bindings Home) (layer : Reference.Layer) (σ σ' : Store)
    (memory memory' : Memory) : Prop where
  cells : A.Cells level σ' memory'
  output : σ'.output = σ.output
  means : Bindings.Parallel (Means B A level memory') homes layer
  others : ∀ s, A.Live level s → (s.level = level → s.slot < i) → A.read memory' s = A.read memory s

theorem ParamsPlaced.received {params : List Param} {values : List Denotation} {words : List Word} {σ : Store}
    {memory : Memory} (h : CallFrame B A level top all frame) (placed : ParamsPlaced frame i params homes)
    (rest : all.drop i = params) (passed : Passed A level (Typing.paramTypes params) values words)
    (cells : A.Cells level σ memory) :
    ∃ layer σ', (Reference.bindParams level i params values).run σ = .ok layer σ' ∧
      Received B A level i homes layer σ σ' memory
        (memory.writeAll (.ofNat (A.address ⟨level, i, 0⟩)) wordSize words) := by
  induction placed generalizing values words σ memory with
  | nil =>
    cases passed
    exact ⟨[], σ, rfl, cells, rfl, .nil, fun _ _ _ => rfl⟩
  | @cons i type id isArray params homes s found kind size _ ih =>
    obtain ⟨param, rest'⟩ := getElem?_of_drop rest
    obtain ⟨live, role, next⟩ := h.paramSlot param found kind size
    have next' : Int64.ofNat (A.address ⟨level, i, 0⟩) + wordSize = .ofNat (A.address ⟨level, i + 1, 0⟩) := by
      rw [next, Int64.ofNat_add]
      rfl
    -- The word of this parameter is not touched when those behind it are written.
    have others : ∀ {memory' : Memory} {w : Word},
        (∀ s, A.Live level s → (s.level = level → s.slot < i + 1) →
          A.read memory' s = A.read (A.write memory ⟨level, i, 0⟩ w) s) →
        ∀ s, A.Live level s → (s.level = level → s.slot < i) → A.read memory' s = A.read memory s := by
      intro memory' w kept s live' below
      rw [kept s live' fun own => Nat.lt_succ_of_lt (below own)]
      refine Layout.read_write_of_ne h.sound live live' ?_
      rintro rfl
      exact Nat.lt_irrefl _ (below rfl)
    cases isArray with
    | false =>
      cases passed with
      | @word w _ values words passed =>
        have cells' := cells.write (w := w) h.sound live role
        obtain ⟨layer, σ', run, received⟩ := ih rest' passed cells'
        rw [← next'] at received
        refine ⟨(id.name, .scalar (.param level i)) :: layer, σ', ?_, received.cells, received.output, ?_,
          others received.others⟩
        · simp only [Reference.bindParams, Reference.bindParam, Reference.read, EStateM.run_bind, EStateM.run_pure,
            EStateM.run_modify]
          rw [run]
        · exact .cons (.var (h.names found) live role rfl) received.means
    | true =>
      cases passed with
      | @array b length k slot _ values words spans passed =>
        have pointer : ∀ b, A.role ⟨level, i, 0⟩ ≠ .cell b := by
          intro b cell
          rw [role] at cell
          cases cell
        have cells' := cells.write_other (w := .ofNat (A.address ⟨k, slot, 0⟩)) h.sound live pointer
        obtain ⟨layer, σ', run, received⟩ := ih rest' passed cells'
        rw [← next'] at received
        refine ⟨(id.name, .array b length) :: layer, σ', ?_, received.cells, received.output, ?_,
          others received.others⟩
        · simp only [Reference.bindParams, Reference.bindParam, EStateM.run_bind, EStateM.run_pure]
          rw [run]
        · refine .cons (.pointer (h.names found) live role ?_ spans) received.means
          exact (received.others _ live fun _ => Nat.lt_succ_self i).trans Layout.read_write_self

theorem ParamsPlaced.address_add {params : List Param} (h : CallFrame B A level top all frame)
    (placed : ParamsPlaced frame i params homes) (rest : all.drop i = params) :
    A.address ⟨level, i + params.length, 0⟩ = A.address ⟨level, i, 0⟩ + 4 * params.length := by
  induction placed with
  | nil => rfl
  | @cons i type id isArray params homes s found kind size _ ih =>
    obtain ⟨param, rest'⟩ := getElem?_of_drop rest
    have next := (h.paramSlot param found kind size).next
    have address := ih rest'
    rw [List.length_cons, Nat.add_comm params.length, ← Nat.add_assoc]
    omega

end Parameters

end MiniC
