import Qbt.Frontend.Parser
import Qbt.Frontend.Text
import Qbt.IR.Operands

/-!
# What the parser actions insert

Every action below the level of a block appends the instructions its statement
denotes and only adds identifiers to the table of temporaries. `Emits` states this
for every numbering that extends the final table, so the facts compose although the
table still grows.
-/

namespace Qbt.Frontend

/-- The table of temporaries numbers distinct identifiers consecutively. -/
structure TmpTable (f : Fn) : Prop where
  count : f.ntmp = f.tmps.length
  numbers : f.tmps.map Prod.snd = List.range f.tmps.length
  distinct : (f.tmps.map Prod.fst).Nodup

/-- A numbering of identifiers that agrees with a table of temporaries. -/
def Numbers (ν : String → Nat) (tmps : List (String × Nat)) : Prop :=
  ∀ name t, tmps.lookup name = some t → ν name = t

/-- The numbering a table of temporaries gives. -/
def numbering (tmps : List (String × Nat)) (name : String) : Nat := (tmps.lookup name).getD 0

/-- The numbering of a table numbers its names. -/
theorem numbers_numbering (tmps : List (String × Nat)) : Numbers (numbering tmps) tmps := by
  intro name t found
  simp [numbering, found]

theorem Numbers.anti {ν : String → Nat} {tmps more : List (String × Nat)}
    (numbers : Numbers ν more) (extends' : tmps <+: more) : Numbers ν tmps := by
  obtain ⟨rest, rfl⟩ := extends'
  intro name t found
  exact numbers name t (by rw [List.lookup_append, found]; rfl)

private theorem mem_of_lookup {tmps : List (String × Nat)} {name : String} {t : Nat}
    (found : tmps.lookup name = some t) : (name, t) ∈ tmps := by
  induction tmps with
  | nil => simp at found
  | cons entry rest ih =>
    obtain ⟨key, value⟩ := entry
    by_cases same : name = key
    · subst key
      simp only [List.lookup_cons_self, Option.some.injEq] at found
      subst value
      exact List.mem_cons_self
    · rw [List.lookup_cons, beq_eq_false_iff_ne.mpr same] at found
      exact List.mem_cons_of_mem _ (ih found)

private theorem not_mem_of_lookup {tmps : List (String × Nat)} {name : String}
    (missing : tmps.lookup name = none) : name ∉ tmps.map Prod.fst := by
  induction tmps with
  | nil => simp
  | cons entry rest ih =>
    obtain ⟨key, value⟩ := entry
    by_cases same : name = key
    · subst key
      simp at missing
    · rw [List.lookup_cons, beq_eq_false_iff_ne.mpr same] at missing
      simp only [List.map_cons, List.mem_cons, not_or]
      exact ⟨same, ih missing⟩

/-- A temporary in the table is below the counter. -/
theorem TmpTable.lt {f : Fn} (table : TmpTable f) {name : String} {t : Nat}
    (found : f.tmps.lookup name = some t) : t < f.ntmp := by
  have member : t ∈ f.tmps.map Prod.snd := List.mem_map_of_mem (f := Prod.snd) (mem_of_lookup found)
  rw [table.numbers, List.mem_range] at member
  rw [table.count]
  exact member

/-- Different identifiers stand for different temporaries. -/
theorem TmpTable.injective {f : Fn} (table : TmpTable f) {left right : String} {t : Nat}
    (foundLeft : f.tmps.lookup left = some t) (foundRight : f.tmps.lookup right = some t) :
    left = right := by
  have values : (f.tmps.map Prod.snd).Nodup := by
    rw [table.numbers]
    exact List.nodup_range
  have equal := List.inj_on_of_nodup_map values (mem_of_lookup foundLeft)
    (mem_of_lookup foundRight) rfl
  exact congrArg Prod.fst equal

/-- An action that only appends instructions and identifiers. `added` are the
appended instructions, given the numbering of identifiers. -/
structure Emits (p p' : Parser) (added : (String → Nat) → List Insn) : Prop where
  graph : p'.f = { p.f with ntmp := p'.f.ntmp, tmps := p'.f.tmps }
  grows : p.f.tmps <+: p'.f.tmps
  table : TmpTable p.f → TmpTable p'.f
  code : ∀ ν, Numbers ν p'.f.tmps → p'.b = { p.b with insns := p.b.insns ++ added ν }
  below : TmpTable p.f → ∀ ν, Numbers ν p'.f.tmps → ∀ n ∈ added ν, n.Below p'.f.ntmp

/-- Emitting only adds temporaries. -/
theorem Emits.ntmp_le {p p' : Parser} {added : (String → Nat) → List Insn}
    (emits : Emits p p' added) (table : TmpTable p.f) : p.f.ntmp ≤ p'.f.ntmp := by
  rw [table.count, (emits.table table).count]
  exact emits.grows.length_le

theorem Emits.refl (p : Parser) : Emits p p fun _ => [] where
  graph := rfl
  grows := List.prefix_rfl
  table := id
  code := by simp
  below := by simp

/-- What is emitted in two steps is the first and then the second. -/
theorem Emits.trans {p p' p'' : Parser} {first second : (String → Nat) → List Insn}
    (before : Emits p p' first) (after : Emits p' p'' second) :
    Emits p p'' fun ν => first ν ++ second ν where
  graph := by rw [after.graph, before.graph]
  grows := before.grows.trans after.grows
  table := after.table ∘ before.table
  code := by
    intro ν numbers
    rw [after.code ν numbers, before.code ν (numbers.anti after.grows)]
    simp
  below := by
    intro table ν numbers n member
    rcases List.mem_append.mp member with early | late
    · exact (before.below table ν (numbers.anti after.grows) n early).mono
        (after.ntmp_le (before.table table))
    · exact after.below (before.table table) ν numbers n late

/-- The counter `idx` is not part of what `Emits` describes. -/
theorem Emits.withIdx {p p' : Parser} {added : (String → Nat) → List Insn}
    (emits : Emits p p' added) (i j : Nat) :
    Emits { p with idx := i } { p' with idx := j } added :=
  ⟨emits.graph, emits.grows, emits.table, emits.code, emits.below⟩

namespace Parser

/-- `idtoval` returns the temporary of the identifier under every numbering that
agrees with the table. -/
theorem doIdtoval_spec {p : Parser} {id : String} {v : Val} (found : p.doIdtoval id = .ok v) :
    (∀ ν, Numbers ν p.f.tmps → v = .tmp (ν id)) ∧ (TmpTable p.f → v.Below p.f.ntmp) := by
  unfold doIdtoval idmatch at found
  cases entry : p.f.tmps.lookup id with
  | none => simp [entry] at found
  | some t =>
    simp only [entry, Except.ok.injEq] at found
    subst v
    exact ⟨fun ν numbers => by rw [numbers id t entry], fun table => table.lt entry⟩

/-- An `arg` action returns the operand the argument denotes. -/
theorem arg_spec {p : Parser} {a : Arg} {v : Val} (found : p.arg a = .ok v) :
    (∀ ν, Numbers ν p.f.tmps → v = a.val ν) ∧ (TmpTable p.f → v.Below p.f.ntmp) := by
  cases a with
  | id name => exact doIdtoval_spec found
  | int n =>
    simp only [arg, Result.pure_eq, Except.ok.injEq] at found
    subst v
    exact ⟨fun _ _ => rfl, fun _ => trivial⟩

/-- `idalloc` returns the identifier's temporary in the table it leaves behind. -/
theorem idalloc_lookup (f : Fn) (id : String) :
    (idalloc f id).1.tmps.lookup id = some (idalloc f id).2 := by
  unfold idalloc idmatch
  cases entry : f.tmps.lookup id with
  | none => simp [List.lookup_append, entry]
  | some t => simpa using entry

/-- Allocating an identifier inserts no instruction. -/
theorem doIdalloc_emits (p : Parser) (id : String) :
    Emits p (p.doIdalloc id).1 fun _ => [] := by
  unfold doIdalloc idalloc idmatch
  cases entry : p.f.tmps.lookup id with
  | some t => exact Emits.refl p
  | none =>
    refine ⟨rfl, List.prefix_append _ _, ?_, by simp, by simp⟩
    intro table
    refine ⟨by simp [table.count], ?_, ?_⟩
    · simp only [List.map_append, List.map_cons, List.map_nil, List.length_append,
        List.length_cons, List.length_nil, List.range_succ, table.numbers, table.count]
    · simp only [List.map_append, List.map_cons, List.map_nil]
      refine List.nodup_append.mpr ⟨table.distinct, by simp, ?_⟩
      intro name member other otherMember
      rw [List.mem_singleton.mp otherMember]
      rintro rfl
      exact not_mem_of_lookup entry member

private theorem doIdalloc_val (p : Parser) (id : String) :
    (∀ ν, Numbers ν (p.doIdalloc id).1.f.tmps → (p.doIdalloc id).2 = .tmp (ν id)) ∧
      (TmpTable p.f → (p.doIdalloc id).2.Below (p.doIdalloc id).1.f.ntmp) := by
  have found := idalloc_lookup p.f id
  refine ⟨fun ν numbers => ?_, fun table => ?_⟩
  · exact congrArg Val.tmp (numbers id _ found).symm
  · exact ((doIdalloc_emits p id).table table).lt found

/-- Inserting an instruction whose operands are what `insn` has under the numbering. -/
theorem doInsadd_emits {p : Parser} {type : InsnType} {vtype : VType} {out in0 in1 : Val}
    {v : Int} {insn : (String → Nat) → Insn}
    (denotes : ∀ ν, Numbers ν p.f.tmps → insnCreate type vtype out in0 in1 v = insn ν)
    (below : TmpTable p.f →
      out.Below p.f.ntmp ∧ in0.Below p.f.ntmp ∧ in1.Below p.f.ntmp) :
    Emits p (p.doInsadd type vtype out in0 in1 v) fun ν => [insn ν] where
  graph := rfl
  grows := List.prefix_rfl
  table := id
  code := by
    intro ν numbers
    rw [← denotes ν numbers]
    rfl
  below := by
    intro table ν numbers n member
    rw [List.mem_singleton.mp member, ← denotes ν numbers]
    exact ⟨(below table).1, (below table).2.1, (below table).2.2⟩

/-- An action that allocates its result and inserts one instruction defining it. -/
private theorem emits_defining {p : Parser} {type : InsnType} {vtype : VType} {dst : String}
    {in0 in1 : Val} {v : Int} {insn : (String → Nat) → Insn}
    (denotes : ∀ ν, Numbers ν (p.doIdalloc dst).1.f.tmps →
      insnCreate type vtype (.tmp (ν dst)) in0 in1 v = insn ν)
    (below : TmpTable p.f →
      in0.Below (p.doIdalloc dst).1.f.ntmp ∧ in1.Below (p.doIdalloc dst).1.f.ntmp) :
    Emits p ((p.doIdalloc dst).1.doInsadd type vtype (p.doIdalloc dst).2 in0 in1 v)
      fun ν => [insn ν] where
  graph := (doIdalloc_emits p dst).graph
  grows := (doIdalloc_emits p dst).grows
  table := (doIdalloc_emits p dst).table
  code := by
    intro ν numbers
    rw [← denotes ν numbers, ← (doIdalloc_val p dst).1 ν numbers]
    rfl
  below := by
    intro table ν numbers n member
    rw [List.mem_singleton.mp member, ← denotes ν numbers]
    have out := (doIdalloc_val p dst).2 table
    rw [(doIdalloc_val p dst).1 ν numbers] at out
    exact ⟨out, (below table).1, (below table).2⟩

/-- Operands looked up before an allocation keep their meaning after it. -/
private theorem arg_after {p : Parser} {a : Arg} {v : Val} (found : p.arg a = .ok v)
    (dst : String) :
    (∀ ν, Numbers ν (p.doIdalloc dst).1.f.tmps → v = a.val ν) ∧
      (TmpTable p.f → v.Below (p.doIdalloc dst).1.f.ntmp) := by
  have allocated := doIdalloc_emits p dst
  have spec := arg_spec found
  exact ⟨fun ν numbers => spec.1 ν (numbers.anti allocated.grows),
    fun table => (spec.2 table).mono (allocated.ntmp_le table)⟩

/-- A plain statement inserts the instruction it denotes. -/
theorem plain_emits {p p' : Parser} {s : Plain} (acted : p.plain s = .ok p') :
    Emits p p' fun ν => [s.insn ν] := by
  cases s with
  | binary op type dst left right =>
    simp only [plain, Result.bind_eq_ok, Result.pure_eq, Except.ok.injEq] at acted
    obtain ⟨a0, found0, a1, found1, rfl⟩ := acted
    have spec0 := arg_after found0 dst
    have spec1 := arg_after found1 dst
    apply emits_defining
    · intro ν numbers
      rw [spec0.1 ν numbers, spec1.1 ν numbers]
      rfl
    · exact fun table => ⟨spec0.2 table, spec1.2 table⟩
  | unary op type dst operand =>
    simp only [plain, Result.bind_eq_ok, Result.pure_eq, Except.ok.injEq] at acted
    obtain ⟨a0, found0, rfl⟩ := acted
    have spec0 := arg_after found0 dst
    apply emits_defining
    · intro ν numbers
      rw [spec0.1 ν numbers]
      rfl
    · exact fun table => ⟨spec0.2 table, trivial⟩
  | immInt type dst n =>
    simp only [plain, Result.pure_eq, Except.ok.injEq] at acted
    subst p'
    exact emits_defining (fun _ _ => rfl) (fun _ => ⟨trivial, trivial⟩)
  | immRef type dst symbol =>
    simp only [plain, Result.pure_eq, Except.ok.injEq] at acted
    subst p'
    exact emits_defining (fun _ _ => rfl) (fun _ => ⟨trivial, trivial⟩)
  | move type dst src =>
    simp only [plain, Result.bind_eq_ok, Result.pure_eq, Except.ok.injEq] at acted
    obtain ⟨a0, found0, rfl⟩ := acted
    have spec0 := doIdtoval_spec found0
    apply emits_defining
    · intro ν numbers
      rw [spec0.1 ν numbers]
      rfl
    · exact fun table => ⟨spec0.2 ((doIdalloc_emits p dst).table table), trivial⟩
  | load type dst base offset =>
    simp only [plain, Result.bind_eq_ok, Result.pure_eq, Except.ok.injEq] at acted
    obtain ⟨a0, found0, rfl⟩ := acted
    have spec0 := doIdtoval_spec found0
    apply emits_defining
    · intro ν numbers
      rw [spec0.1 ν numbers]
      rfl
    · exact fun table => ⟨spec0.2 ((doIdalloc_emits p dst).table table), trivial⟩
  | store value type base offset =>
    simp only [plain, Result.bind_eq_ok, Result.pure_eq, Except.ok.injEq] at acted
    obtain ⟨a1, found1, a0, found0, rfl⟩ := acted
    have spec1 := arg_spec found1
    have spec0 := doIdtoval_spec found0
    apply doInsadd_emits
    · intro ν numbers
      rw [spec0.1 ν numbers, spec1.1 ν numbers]
      rfl
    · exact fun table => ⟨trivial, spec0.2 table, spec1.2 table⟩
  | blit dst size src =>
    simp only [plain, Result.bind_eq_ok, Result.pure_eq, Except.ok.injEq] at acted
    obtain ⟨a0, found0, a1, found1, rfl⟩ := acted
    have spec0 := doIdtoval_spec found0
    have spec1 := doIdtoval_spec found1
    apply doInsadd_emits
    · intro ν numbers
      rw [spec0.1 ν numbers, spec1.1 ν numbers]
      rfl
    · exact fun table => ⟨trivial, spec0.2 table, spec1.2 table⟩
  | alloc type dst size =>
    simp only [plain, Result.pure_eq, Except.ok.injEq] at acted
    subst p'
    exact emits_defining (fun _ _ => rfl) (fun _ => ⟨trivial, trivial⟩)
  | addr type dst src =>
    simp only [plain, Result.bind_eq_ok, Result.pure_eq, Except.ok.injEq] at acted
    obtain ⟨a0, found0, rfl⟩ := acted
    have spec0 := doIdtoval_spec found0
    apply emits_defining
    · intro ν numbers
      rw [spec0.1 ν numbers]
      rfl
    · exact fun table => ⟨spec0.2 ((doIdalloc_emits p dst).table table), trivial⟩
  | dealloc size =>
    simp only [plain, Result.pure_eq, Except.ok.injEq] at acted
    subst p'
    exact doInsadd_emits (fun _ _ => rfl) (fun _ => ⟨trivial, trivial, trivial⟩)

/-- A parameter is read from the slot the counter stands at. -/
theorem param_emits (p : Parser) (type : VType) (id : String) :
    Emits p (p.param type id) fun ν => [paramInsn ν p.idx (type, id)] := by
  have inserted : Emits p ((p.doIdalloc id).1.doInsadd .param type (p.doIdalloc id).2 .noclass
      (.imm p.idx .i27) 0) fun ν => [paramInsn ν p.idx (type, id)] :=
    emits_defining (fun _ _ => rfl) (fun _ => ⟨trivial, trivial⟩)
  exact inserted.withIdx p.idx (p.idx + 1)

/-- A parameter list reads consecutive slots. -/
theorem params_emits (p : Parser) (entries : List (VType × String)) :
    Emits p (entries.foldl (fun p entry => p.param entry.1 entry.2) p)
      fun ν => entries.mapIdx fun k => paramInsn ν (p.idx + k) := by
  induction entries generalizing p with
  | nil => exact Emits.refl p
  | cons entry rest ih =>
    have tail := ih (p.param entry.1 entry.2)
    have advanced : (p.param entry.1 entry.2).idx = p.idx + 1 := rfl
    rw [advanced] at tail
    simpa [List.mapIdx_cons, Nat.add_assoc, Nat.add_comm 1] using
      (param_emits p entry.1 entry.2).trans tail

/-- The numbered operand actions insert their operand with the counter's slot. -/
theorem numbered_emits {type : InsnType} {p p' : Parser} {a : Arg}
    (acted : numbered type p a = .ok p') :
    p'.idx = p.idx + 1 ∧ Emits p p' fun ν =>
      [insnCreate type .notype .noclass (a.val ν) (.imm p.idx .i27) 0] := by
  simp only [numbered, Result.bind_eq_ok, Result.pure_eq, Except.ok.injEq] at acted
  obtain ⟨a0, found, rfl⟩ := acted
  have spec := arg_spec found
  have inserted : Emits p (p.doInsadd type .notype .noclass a0 (.imm p.idx .i27) 0)
      fun ν => [insnCreate type .notype .noclass (a.val ν) (.imm p.idx .i27) 0] := by
    apply doInsadd_emits
    · intro ν numbers
      rw [spec.1 ν numbers]
    · exact fun table => ⟨trivial, spec.2 table, trivial⟩
  exact ⟨rfl, inserted.withIdx p.idx (p.idx + 1)⟩

/-- A numbered operand list fills consecutive slots. -/
theorem numbered_foldlM_emits {type : InsnType} {p p' : Parser} {args : List Arg}
    (acted : args.foldlM (numbered type) p = .ok p') :
    Emits p p' fun ν => args.mapIdx fun k a =>
      insnCreate type .notype .noclass (a.val ν) (.imm (p.idx + k : Nat) .i27) 0 := by
  induction args generalizing p with
  | nil =>
    simp only [List.foldlM_nil, Result.pure_eq, Except.ok.injEq] at acted
    subst p'
    exact Emits.refl p
  | cons a rest ih =>
    simp only [List.foldlM_cons, Result.bind_eq_ok] at acted
    obtain ⟨middle, first, remaining⟩ := acted
    obtain ⟨advanced, emits⟩ := numbered_emits first
    have tail := ih remaining
    rw [advanced] at tail
    simpa [List.mapIdx_cons, Nat.add_assoc, Nat.add_comm 1] using emits.trans tail

/-- A call result is read from the slot the counter stands at. -/
theorem callRet_emits (p : Parser) (id : String) :
    Emits p (p.callRet id) fun ν => [retvalInsn ν p.idx id] := by
  have inserted : Emits p ((p.doIdalloc id).1.doInsadd .retval .notype (p.doIdalloc id).2 .noclass
      (.imm p.idx .i27) 0) fun ν => [retvalInsn ν p.idx id] :=
    emits_defining (fun _ _ => rfl) (fun _ => ⟨trivial, trivial⟩)
  exact inserted.withIdx p.idx (p.idx + 1)

/-- A call's results are read from consecutive slots. -/
theorem callRets_emits (p : Parser) (rets : List String) :
    Emits p (rets.foldl callRet p) fun ν => rets.mapIdx fun k => retvalInsn ν (p.idx + k) := by
  induction rets generalizing p with
  | nil => exact Emits.refl p
  | cons id rest ih =>
    have tail := ih (p.callRet id)
    have advanced : (p.callRet id).idx = p.idx + 1 := rfl
    rw [advanced] at tail
    simpa [List.mapIdx_cons, Nat.add_assoc, Nat.add_comm 1] using (callRet_emits p id).trans tail

/-- The value a call names, under every numbering that agrees with the table. -/
private theorem callee_spec {p : Parser} {target : Callee} {v : Val}
    (found : p.callee target = .ok v) :
    (∀ ν, Numbers ν p.f.tmps → v = target.val ν) ∧ (TmpTable p.f → v.Below p.f.ntmp) := by
  cases target with
  | symbol name =>
    simp only [callee, Result.pure_eq, Except.ok.injEq] at found
    subst v
    exact ⟨fun _ _ => rfl, fun _ => trivial⟩
  | id name => exact doIdtoval_spec found

/-- What a call has inserted when its block is closed: the placeholder has become
the CALL between arguments and results. -/
theorem call_emits {p p' : Parser} {target : Callee} {args : List Arg} {rets : List String}
    (acted : p.call target args rets = .ok p') :
    ∃ q, Emits p q (fun ν => (Stmt.call target args rets).insns ν) ∧
      q.doNewBlock .j .noclass .noclass none = .ok p' := by
  simp only [call, Result.bind_eq_ok] at acted
  obtain ⟨p1, passed, v, found, q, replaced, closed⟩ := acted
  simp only [doInsReplace, Result.bind_eq_ok, Result.pure_eq, Except.ok.injEq] at replaced
  obtain ⟨_, _, completed⟩ := replaced
  have before := (numbered_foldlM_emits passed).withIdx p.idx p1.idx
  have after := callRets_emits (p1.doInsadd .call .notype .noclass .noclass .noclass 0).resetIndex
    rets
  have lookup := callee_spec found
  generalize results : rets.foldl callRet
    (p1.doInsadd .call .notype .noclass .noclass .noclass 0).resetIndex = p3 at *
  refine ⟨q, ?_, closed⟩
  subst completed
  refine ⟨?_, before.grows.trans after.grows, fun table => after.table (before.table table), ?_, ?_⟩
  · have graph : p3.f = { p1.f with ntmp := p3.f.ntmp, tmps := p3.f.tmps } := after.graph
    exact graph.trans (congrArg (fun f : Fn => { f with ntmp := p3.f.ntmp, tmps := p3.f.tmps })
      before.graph)
  · intro ν numbers
    have passedCode : p1.b = _ := before.code ν (numbers.anti after.grows)
    have readCode : p3.b = _ := after.code ν numbers
    have named : v = target.val ν := lookup.1 ν numbers
    simp only [doInsadd, insadd, resetIndex] at readCode
    simp only [readCode, passedCode, named]
    simp [Stmt.insns, resetIndex, callInsn]
    rfl
  · intro table ν numbers n member
    have passedTable : TmpTable p1.f := before.table table
    rcases List.mem_append.mp member with passed' | rest
    · exact (before.below table ν (numbers.anti after.grows) n
        (by simpa [argInsn, resetIndex] using passed')).mono
        (after.ntmp_le passedTable)
    · rcases List.mem_cons.mp rest with rfl | read
      · refine ⟨trivial, ?_, trivial⟩
        exact lookup.1 ν numbers ▸ lookup.2 (after.table passedTable)
      · exact after.below passedTable ν numbers n (by simpa [resetIndex] using read)

end Parser
end Qbt.Frontend
