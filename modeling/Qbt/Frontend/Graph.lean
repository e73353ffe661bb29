import Qbt.Frontend.Built
import Qbt.IR.Layout
import Mathlib.Logic.Equiv.List

/-!
# The block graph means what the text says

A step of the block graph executes one chunk of the text. The two executions are
related at the boundaries of chunks: control stands at the start of a chunk in the
text exactly where it stands at the chunk's block in the graph.
-/

namespace Qbt.Frontend

namespace Built

variable {source : Function} {chunks : List Chunk} {f : Fn}

/-- Every listed block holds a chunk. -/
theorem chunk_of (built : Built source chunks f) {i : Nat} {b : Blk}
    (found : f.blks[i]? = some b) : ∃ c, chunks[i]? = some c := by
  have inside := (List.getElem?_eq_some_iff.mp found).1
  rw [built.count] at inside
  exact ⟨_, List.getElem?_eq_getElem inside⟩

/-- The blocks have the instructions of their chunks. -/
theorem insns_of (built : Built source chunks f) {i : Nat} {b : Blk}
    (found : f.blks[i]? = some b) :
    ∃ c, chunks[i]? = some c ∧ b.insns = c.insns (numbering f.tmps) := by
  obtain ⟨c, foundChunk⟩ := built.chunk_of found
  refine ⟨c, foundChunk, ?_⟩
  rw [built.blks _ (numbers_numbering f.tmps) i c b foundChunk found]
  exact Chunk.blk_insns _ i b.name c

/-- Every chunk has a block. -/
theorem blk_of (built : Built source chunks f) {i : Nat} {c : Chunk}
    (found : chunks[i]? = some c) : ∃ b, f.blks[i]? = some b := by
  have inside := (List.getElem?_eq_some_iff.mp found).1
  rw [← built.count] at inside
  exact ⟨_, List.getElem?_eq_getElem inside⟩

/-- Blocks are numbered from one in their order. -/
theorem blk_id (built : Built source chunks f) {i : Nat} {b : Blk}
    (found : f.blks[i]? = some b) : b.id = i + 1 := by
  obtain ⟨c, foundChunk⟩ := built.chunk_of found
  rw [built.blks _ (numbers_numbering f.tmps) i c b foundChunk found]
  exact c.blk_id _ i b.name

private theorem ids_eq (built : Built source chunks f) :
    f.ids = (List.range chunks.length).map (· + 1) := by
  apply List.ext_getElem?
  intro i
  rw [Fn.ids, List.getElem?_map, List.getElem?_map]
  cases found : f.blks[i]? with
  | none =>
    have outside := List.getElem?_eq_none_iff.mp found
    rw [built.count] at outside
    rw [List.getElem?_eq_none (by simpa using outside)]
    rfl
  | some b =>
    have inside := (List.getElem?_eq_some_iff.mp found).1
    rw [built.count] at inside
    rw [List.getElem?_range inside]
    exact congrArg some (built.blk_id found)

private theorem ids_nodup (built : Built source chunks f) : f.ids.Nodup := by
  rw [built.ids_eq]
  exact List.nodup_range.map (fun _ _ equal => Nat.succ.inj equal)

private theorem find?_eq (built : Built source chunks f) {i : Nat} {b : Blk}
    (found : f.blks[i]? = some b) : f.find? (i + 1) = some b := by
  rw [← built.blk_id found]
  exact Fn.find?_of_mem built.ids_nodup (List.mem_of_getElem? found)

/-- An entered label stands for the chunk behind its first occurrence in the text. -/
theorem label_chunk (built : Built source chunks f) {label : String} {id : Nat}
    (found : Parser.labelFind f label = some id) :
    ∃ (i : Nat) (c : Chunk), id = i + 1 ∧ chunks[i]? = some c ∧ c.params = [] ∧
      textGoto source label = .item c.start := by
  rcases Lists.lookup_forall₂ (fun related => related.1) built.labels label with
    ⟨_, missing⟩ | ⟨position, entry, inText, inTable, _, i, c, target, foundChunk, start, params⟩
  · rw [Parser.labelFind, missing] at found
    cases found
  · obtain rfl : entry = id := by simpa [Parser.labelFind, inTable] using found
    refine ⟨i, c, target, foundChunk, params, ?_⟩
    simp only [textGoto, inText]
    rw [start]

/-- A block that does not return falls through to the next chunk. -/
theorem next_chunk (built : Built source chunks f) {ν : String → Nat} {i : Nat} {c : Chunk}
    (found : chunks[i]? = some c) (stays : c.exit ν ≠ .leave) :
    ∃ d, chunks[i + 1]? = some d ∧ d.start = c.stop ∧ d.params = [] := by
  have inside := (List.getElem?_eq_some_iff.mp found).1
  have more : i + 1 < chunks.length := by
    by_contra last
    exact stays (built.final ν i c found (by omega))
  have foundNext := List.getElem?_eq_getElem more
  exact ⟨_, foundNext, built.linked.next i c _ found foundNext⟩

/-- The branch target of a block that does not return is a chunk of its own. -/
theorem target_chunk (built : Built source chunks f) {ν : String → Nat}
    (numbers : Numbers ν f.tmps) {i : Nat} {c : Chunk} {b : Blk}
    (found : chunks[i]? = some c) (foundBlk : f.blks[i]? = some b) {label : String}
    (labelled : c.exit ν = .goto label ∨ ∃ type a0 a1, c.exit ν = .cond type a0 a1 label) :
    ∃ (j : Nat) (d : Chunk), Parser.labelFind f label = some (j + 1) ∧ chunks[j]? = some d ∧
      d.params = [] ∧ textGoto source label = .item d.start := by
  have toLabel : b.toLabel = some label := by
    rw [built.blks ν numbers i c b found foundBlk]
    have before := c.blk_toLabel ν i b.name
    rcases labelled with goto | ⟨type, a0, a1, cond⟩
    · simpa [goto] using before
    · simpa [cond] using before
  obtain ⟨id, entry⟩ := built.found b (List.mem_of_getElem? foundBlk) label toLabel
  obtain ⟨j, d, rfl, foundTarget, params, goto⟩ := built.label_chunk entry
  exact ⟨j, d, entry, foundTarget, params, goto⟩

end Built

/-- Control stands at a chunk in the text and at the chunk's block in the graph, in
the same program state. -/
def AtChunk {σ : Type} (chunks : List Chunk) (text : TextCtrl × σ) (graph : Ctrl × σ) : Prop :=
  text.2 = graph.2 ∧
    ((text.1 = .start ∧ graph.1 = .block 1) ∨
      (∃ (i : Nat) (c : Chunk), chunks[i]? = some c ∧ c.params = [] ∧
        text.1 = .item c.start ∧ graph.1 = .block (i + 1)) ∨
      (text.1 = .returned ∧ graph.1 = .returned))

section Simulation

variable {σ ε : Type} (I : Interp σ ε) {ν : String → Nat} {source : Function}
  {chunks : List Chunk} {f : Fn}

/-- Following an edge to a chunk's block leads to the start of the chunk. -/
private theorem follow_chunk (built : Built source chunks f) {i : Nat} {c : Chunk}
    (found : chunks[i]? = some c) (params : c.params = []) (state : σ) :
    AtChunk chunks (.item c.start, state) (I.follow f (some (i + 1)) [] state) := by
  obtain ⟨b, foundBlk⟩ := built.blk_of found
  have block := built.blks _ (numbers_numbering f.tmps) i c b found foundBlk
  have noParams : b.params = [] := by
    rw [block]
    unfold Chunk.blk Chunk.exitBlk
    split <;> rfl
  rw [Interp.follow_some (built.find?_eq foundBlk), noParams, I.assign_nil]
  exact ⟨rfl, Or.inr (Or.inl ⟨i, c, found, params, rfl, rfl⟩)⟩

/-- Executing plain statements in textual order. -/
private theorem run_plains {items : List Item} (same : source.body.items = items)
    {start : Nat} {plains : List Plain}
    (covers : ∀ i s, plains[i]? = some s → ∃ it, items[start + i]? = some it ∧ it.stmt = .plain s)
    (state : σ) :
    (textMachine I ν source).run plains.length (.item start, state) =
      ((I.perform (plains.map (Plain.insn ν)) state).1,
        (.item (start + plains.length), (I.perform (plains.map (Plain.insn ν)) state).2)) := by
  induction plains generalizing start state with
  | nil => simp
  | cons s rest ih =>
    obtain ⟨it, here, isPlain⟩ := covers 0 s rfl
    have stepped : (textMachine I ν source).step (.item start, state) =
        some (I.observe (s.insn ν) state, (.item (start + 1), I.exec (s.insn ν) state)) := by
      have found : source.body.items[start]? = some it := by simpa [same] using here
      simp [textMachine, found, isPlain, stepStmt, leaveStmt, Stmt.insns, Stmt.exit]
    have covers' : ∀ i s, rest[i]? = some s →
        ∃ it, items[start + 1 + i]? = some it ∧ it.stmt = .plain s := by
      intro i s' found
      obtain ⟨it', there, isPlain'⟩ := covers (i + 1) s' (by simpa using found)
      exact ⟨it', by rw [← there]; congr 1; omega, isPlain'⟩
    rw [List.length_cons, Machine.run_succ stepped, ih covers']
    simp [Nat.add_assoc, Nat.add_comm 1]

/-- The exit of a chunk's last statement is the way its block is left. -/
private theorem depart_chunk (built : Built source chunks f) (numbers : Numbers ν f.tmps)
    {i : Nat} {c : Chunk} {b : Blk} (found : chunks[i]? = some c)
    (foundBlk : f.blks[i]? = some b) {position : Nat} (behind : position + 1 = c.stop)
    (state : σ) :
    (leaveStmt I source position (c.exit ν) state).1 = (I.depart f b state).1 ∧
      AtChunk chunks (leaveStmt I source position (c.exit ν) state).2
        (I.depart f b state).2 := by
  have block := built.blks ν numbers i c b found foundBlk
  have noArgs1 : b.args1 = [] := by
    rw [block]
    unfold Chunk.blk Chunk.exitBlk
    split <;> rfl
  have fallThrough : c.exit ν ≠ .leave →
      AtChunk chunks (.item (position + 1), state) (I.follow f (some (i + 2)) [] state) := by
    intro stays
    obtain ⟨d, foundNext, start, params⟩ := built.next_chunk found stays
    rw [behind, ← start]
    exact follow_chunk I built foundNext params state
  cases exit : c.exit ν with
  | fall =>
    have kind : b.btype = .j ∧ b.s2 = some (i + 2) ∧ b.args2 = [] := by
      rw [block]
      simp [Chunk.blk, Chunk.exitBlk, exit, Exit.target]
    simp only [Interp.depart, kind.1, kind.2.1, kind.2.2, leaveStmt]
    exact ⟨trivial, fallThrough (by simp [exit])⟩
  | goto label =>
    obtain ⟨j, d, entry, foundTarget, params, goto⟩ :=
      built.target_chunk numbers found foundBlk (Or.inl exit)
    have kind : b.btype = .j ∧ b.s2 = some (j + 1) ∧ b.args2 = [] := by
      rw [block]
      simp [Chunk.blk, Chunk.exitBlk, exit, Exit.target, entry]
    simp only [Interp.depart, kind.1, kind.2.1, kind.2.2, leaveStmt, goto]
    exact ⟨trivial, follow_chunk I built foundTarget params state⟩
  | cond type a0 a1 label =>
    obtain ⟨j, d, entry, foundTarget, params, goto⟩ :=
      built.target_chunk numbers found foundBlk (Or.inr ⟨type, a0, a1, exit⟩)
    have kind : b.btype = type ∧ b.cmp0 = a0 ∧ b.cmp1 = a1 ∧ b.s1 = some (i + 2) ∧
        b.s2 = some (j + 1) ∧ b.args2 = [] := by
      rw [block]
      simp [Chunk.blk, Chunk.exitBlk, exit, Exit.target, entry]
    obtain ⟨btype, cmp0, cmp1, s1, s2, noArgs2⟩ := kind
    have conditional : I.depart f b state =
        (I.decision (I.taken type a0 a1 state),
          if I.taken type a0 a1 state then I.follow f (some (j + 1)) [] state
          else I.follow f (some (i + 2)) [] state) := by
      have proper := Chunk.exit_cond exit
      unfold Interp.depart
      rw [btype, cmp0, cmp1, s1, s2, noArgs1, noArgs2]
      split
      · exact absurd rfl proper.1
      · exact absurd rfl proper.2
      · rfl
    rw [conditional]
    simp only [leaveStmt, goto]
    refine ⟨trivial, ?_⟩
    by_cases taken : I.taken type a0 a1 state
    · simp only [taken, if_true]
      exact follow_chunk I built foundTarget params state
    · simp only [taken]
      exact fallThrough (by simp [exit])
  | leave =>
    have kind : b.btype = .ret := by
      rw [block]
      simp [Chunk.blk, Chunk.exitBlk, exit]
    simp only [Interp.depart, kind, leaveStmt]
    exact ⟨trivial, rfl, Or.inr (Or.inr ⟨rfl, rfl⟩)⟩

/-- A chunk's statements execute like the instructions of its block, and both
executions then stand at the same chunk again. -/
private theorem run_chunk (built : Built source chunks f) (numbers : Numbers ν f.tmps)
    {i : Nat} {c : Chunk} {b : Blk} (found : chunks[i]? = some c)
    (foundBlk : f.blks[i]? = some b) (state : σ) :
    let body := c.plains.map (Plain.insn ν) ++ c.last.toList.flatMap (Stmt.insns ν)
    let done := I.perform body state
    let ran := (textMachine I ν source).run (c.plains.length + c.last.toList.length)
      (.item c.start, state)
    ran.1 = done.1 ++ (I.depart f b done.2).1 ∧ AtChunk chunks ran.2 (I.depart f b done.2).2 := by
  intro body done ran
  have covers := built.covers c (List.mem_of_getElem? found)
  have plains := run_plains I (ν := ν) rfl covers.plains state
  cases closes : c.last with
  | none =>
    have ran' : ran = (done.1, (.item (c.start + c.plains.length), done.2)) := by
      simp [ran, done, body, closes, plains]
    have stop : c.stop = c.start + c.plains.length := by simp [Chunk.stop, closes]
    have fall : c.exit ν = .fall := by simp [Chunk.exit, closes]
    obtain ⟨d, foundNext, start, params⟩ := built.next_chunk (ν := ν) found (by simp [fall])
    have left : I.depart f b done.2 = ([], I.follow f (some (i + 2)) [] done.2) := by
      rw [built.blks ν numbers i c b found foundBlk]
      simp [Interp.depart, Chunk.blk, Chunk.exitBlk, fall, Exit.target]
    rw [ran', left, ← stop, ← start]
    exact ⟨(List.append_nil _).symm, follow_chunk I built foundNext params done.2⟩
  | some s =>
    obtain ⟨it, here, rfl⟩ := covers.last s closes
    have stop : c.start + c.plains.length + 1 = c.stop := by simp [Chunk.stop, closes]
    have exit : c.exit ν = it.stmt.exit ν := by simp [Chunk.exit, closes]
    have left := depart_chunk I built numbers found foundBlk stop done.2
    have split : done = ((I.perform (c.plains.map (Plain.insn ν)) state).1 ++
        (I.perform (it.stmt.insns ν) (I.perform (c.plains.map (Plain.insn ν)) state).2).1,
        (I.perform (it.stmt.insns ν) (I.perform (c.plains.map (Plain.insn ν)) state).2).2) := by
      simp only [done, body, closes, Option.toList_some, List.flatMap_singleton]
      exact I.perform_append _ _ _
    have stepped (state : σ) : (textMachine I ν source).step
        (.item (c.start + c.plains.length), state) =
          some (stepStmt I ν source (c.start + c.plains.length) it.stmt state) := by
      simp [textMachine, here]
    have ran' : ran = (done.1 ++
        (leaveStmt I source (c.start + c.plains.length) (c.exit ν) done.2).1,
        (leaveStmt I source (c.start + c.plains.length) (c.exit ν) done.2).2) := by
      simp only [ran, closes, Option.toList_some, List.length_singleton]
      rw [Machine.run_add, plains, Machine.run_succ (stepped _), exit, split]
      simp
    rw [ran', left.1]
    exact ⟨rfl, left.2⟩

/-- Each block of the graph is executed by the text in one or more steps. -/
theorem graph_simulation (built : Built source chunks f) (numbers : Numbers ν f.tmps) :
    Machine.Macro (textMachine I ν source) (I.machine f) (AtChunk chunks) where
  halts := by
    rintro ⟨text, state⟩ ⟨graph, _⟩ ⟨rfl, ⟨rfl, rfl⟩ | ⟨i, c, _, _, rfl, rfl⟩ | ⟨rfl, rfl⟩⟩
    · simp only [textMachine, Interp.machine]
      split <;> simp
    · simp only [textMachine, Interp.machine]
      split <;> split <;> simp
    · simp [textMachine, Interp.machine]
  steps := by
    rintro ⟨text, state⟩ ⟨graph, _⟩ events next ⟨rfl, ⟨rfl, rfl⟩ | ⟨i, c, found, params, rfl, rfl⟩
      | ⟨rfl, rfl⟩⟩ stepped
    · -- The first block also reads the parameters.
      obtain ⟨c, found⟩ : ∃ c, chunks[0]? = some c :=
        ⟨_, List.getElem?_eq_getElem built.nonempty⟩
      obtain ⟨b, foundBlk⟩ := built.blk_of found
      rw [Interp.machine_step_block (built.find?_eq foundBlk), Option.some.injEq] at stepped
      obtain ⟨rfl, rfl⟩ := Prod.ext_iff.mp stepped
      have params := (built.linked.first _ found).2
      have start := (built.linked.first _ found).1
      have ran := run_chunk I built numbers found foundBlk
        (I.perform (source.params.mapIdx (paramInsn ν)) state).2
      have insns : b.insns = source.params.mapIdx (paramInsn ν) ++
          (c.plains.map (Plain.insn ν) ++
            c.last.toList.flatMap (Stmt.insns ν)) := by
        rw [built.blks ν numbers 0 _ b found foundBlk]
        simp [Chunk.insns, params]
      have read : (textMachine I ν source).step (.start, state) = some
          ((I.perform (source.params.mapIdx (paramInsn ν)) state).1,
            (.item 0, (I.perform (source.params.mapIdx (paramInsn ν)) state).2)) := rfl
      rw [start] at ran
      refine ⟨c.plains.length + c.last.toList.length, _,
        Machine.run_succ read _ |>.trans (Prod.ext ?_ rfl), ?_⟩
      · simp only [ran.1, Interp.stepBlock, insns, I.perform_append, List.append_assoc]
      · simp only [Interp.stepBlock, insns, I.perform_append] at ran ⊢
        exact ran.2
    · obtain ⟨b, foundBlk⟩ := built.blk_of found
      rw [Interp.machine_step_block (built.find?_eq foundBlk), Option.some.injEq] at stepped
      obtain ⟨rfl, rfl⟩ := Prod.ext_iff.mp stepped
      have insns : b.insns = c.plains.map (Plain.insn ν) ++
          c.last.toList.flatMap (Stmt.insns ν) := by
        rw [built.blks ν numbers i c b found foundBlk]
        simp [Chunk.insns, params]
      have ran := run_chunk I built numbers found foundBlk state
      have occupied : 0 < c.plains.length + c.last.toList.length := by
        rcases built.occupied c (List.mem_of_getElem? found) with some | room
        · exact absurd params some
        · simp only [Chunk.stop] at room
          omega
      obtain ⟨extra, length⟩ := Nat.exists_eq_add_of_le' occupied
      rw [length] at ran
      refine ⟨extra, _, Prod.ext ?_ rfl, ?_⟩
      · rw [ran.1, Interp.stepBlock, insns]
      · rw [Interp.stepBlock, insns]
        exact ran.2
    · simp [Interp.machine] at stepped

end Simulation

/-- Identifiers can be told apart by a number. -/
private theorem encode_injective :
    Function.Injective fun name : String => Encodable.encode (name.toList.map Char.toNat) := by
  intro left right same
  have codes := Encodable.encode_injective same
  have characters := List.map_injective_iff.mpr (fun _ _ equal => Char.toNat_inj.mp equal) codes
  exact String.toList_inj.mp characters

/-- The table of temporaries extends to a numbering that separates all identifiers. -/
theorem TmpTable.exists_injective {f : Fn} (table : TmpTable f) :
    ∃ ν, Numbers ν f.tmps ∧ Function.Injective ν := by
  let fresh (name : String) : Nat := f.ntmp + Encodable.encode (name.toList.map Char.toNat)
  refine ⟨fun name => (f.tmps.lookup name).getD (fresh name), ?_, ?_⟩
  · intro name t found
    simp [found]
  · intro left right same
    simp only at same
    cases foundLeft : f.tmps.lookup left with
    | none =>
      cases foundRight : f.tmps.lookup right with
      | none =>
        simp only [foundLeft, foundRight, Option.getD_none, fresh, Nat.add_left_cancel_iff] at same
        exact encode_injective same
      | some u =>
        have bound := table.lt foundRight
        simp only [foundLeft, foundRight, Option.getD_none, Option.getD_some, fresh] at same
        omega
    | some t =>
      cases foundRight : f.tmps.lookup right with
      | none =>
        have bound := table.lt foundLeft
        simp only [foundLeft, foundRight, Option.getD_none, Option.getD_some, fresh] at same
        omega
      | some u =>
        simp only [foundLeft, foundRight, Option.getD_some] at same
        subst u
        exact table.injective foundLeft foundRight

/-- A function that `buildFunction` returns is built from the chunks of its text. -/
theorem buildFunction_built {idx : Nat} {source : Function} {f : Fn}
    (parsed : buildFunction idx source = .ok f) : ∃ chunks, Built source chunks f := by
  simp only [buildFunction, Result.bind_eq_ok] at parsed
  obtain ⟨p, read, finished⟩ := parsed
  obtain ⟨chunks, current, parsed'⟩ :=
    (Parsed.initial idx source.params source.body.items).body rfl read
  exact ⟨chunks, parsed'.finish finished⟩

namespace Built

variable {source : Function} {chunks : List Chunk} {f : Fn}

private theorem mem_ids (built : Built source chunks f) {id : Nat} :
    id ∈ f.ids ↔ ∃ i < chunks.length, id = i + 1 := by
  rw [built.ids_eq]
  simp [eq_comm]

/-- Execution starts in the first block. -/
theorem entry_eq (built : Built source chunks f) : Interp.entry f = .block 1 := by
  obtain ⟨c, found⟩ : ∃ c, chunks[0]? = some c := ⟨_, List.getElem?_eq_getElem built.nonempty⟩
  obtain ⟨b, foundBlk⟩ := built.blk_of found
  unfold Interp.entry
  cases listed : f.blks with
  | nil => simp [listed] at foundBlk
  | cons first rest =>
    obtain rfl : first = b := by simpa [listed] using foundBlk
    exact congrArg Ctrl.block (built.blk_id foundBlk)

/-- A block that does not return falls through to the block behind it and branches to
a listed block. -/
theorem successors (built : Built source chunks f) {i : Nat} {b : Blk}
    (found : f.blks[i]? = some b) (stays : ¬ b.isReturn) :
    b.s1 = some (i + 2) ∧ i + 1 < f.blks.length ∧ ∃ id ∈ f.ids, b.s2 = some id := by
  obtain ⟨c, foundChunk⟩ := built.chunk_of found
  have numbers := numbers_numbering f.tmps
  have block := built.blks _ numbers i c b foundChunk found
  generalize numbering f.tmps = ν at numbers block
  have continues : c.exit ν ≠ .leave := by
    intro leave
    have ret := (c.blk_ret_iff ν i b.name).mpr leave
    apply stays
    rw [block]
    simpa [Blk.isReturn] using ret
  obtain ⟨d, foundNext, _⟩ := built.next_chunk foundChunk continues
  have more := (List.getElem?_eq_some_iff.mp foundNext).1
  refine ⟨?_, by rwa [built.count], ?_⟩
  · rw [block]
    cases exit : c.exit ν <;> simp [Chunk.blk, Chunk.exitBlk, exit] at continues ⊢
  · have target : b.s2 = (c.exit ν).target f (i + 2) := by rw [block]
    rw [target]
    cases exit : c.exit ν with
    | fall => exact ⟨i + 2, built.mem_ids.mpr ⟨i + 1, more, rfl⟩, rfl⟩
    | goto label =>
      obtain ⟨j, e, entry, foundTarget, _⟩ :=
        built.target_chunk numbers foundChunk found (Or.inl exit)
      have inside := (List.getElem?_eq_some_iff.mp foundTarget).1
      exact ⟨j + 1, built.mem_ids.mpr ⟨j, inside, rfl⟩, entry⟩
    | cond type a0 a1 label =>
      obtain ⟨j, e, entry, foundTarget, _⟩ :=
        built.target_chunk numbers foundChunk found (Or.inr ⟨type, a0, a1, exit⟩)
      have inside := (List.getElem?_eq_some_iff.mp foundTarget).1
      exact ⟨j + 1, built.mem_ids.mpr ⟨j, inside, rfl⟩, entry⟩
    | leave => exact absurd exit continues

/-- A return block has no successors. -/
theorem return_successors (built : Built source chunks f) {i : Nat} {b : Blk}
    (found : f.blks[i]? = some b) (returns : b.isReturn) : b.s1 = none ∧ b.s2 = none := by
  obtain ⟨c, foundChunk⟩ := built.chunk_of found
  have numbers := numbers_numbering f.tmps
  have block := built.blks _ numbers i c b foundChunk found
  generalize numbering f.tmps = ν at numbers block
  have leave : c.exit ν = .leave := by
    apply (c.blk_ret_iff ν i b.name).mp
    have ret : b.btype = .ret := by simpa [Blk.isReturn] using returns
    rw [block] at ret
    exact ret
  rw [block]
  simp [Chunk.blk, Chunk.exitBlk, leave, Exit.target]

end Built

/-- The parser annotates no block, and each block falls through to the next. -/
theorem Built.raw {source : Function} {chunks : List Chunk} {f : Fn}
    (built : Built source chunks f) : Raw f := by
  have plain : ∀ b ∈ f.blks, b.params = [] ∧ b.args1 = [] ∧ b.args2 = [] ∧ b.visited = 0 := by
    intro b member
    obtain ⟨i, found⟩ := List.mem_iff_getElem?.mp member
    obtain ⟨c, foundChunk⟩ := built.chunk_of found
    rw [built.blks _ (numbers_numbering f.tmps) i c b foundChunk found]
    unfold Chunk.blk Chunk.exitBlk
    cases c.exit (numbering f.tmps) <;> exact ⟨rfl, rfl, rfl, rfl⟩
  exact {
    nonempty := by
      intro empty
      have positive := built.nonempty
      rw [← built.count, empty] at positive
      exact Nat.lt_irrefl 0 positive
    nodup := built.ids_nodup
    falls := by
      intro before b after split stays
      have found : f.blks[before.length]? = some b := by simp [split]
      obtain ⟨target, more, _⟩ := built.successors found stays
      cases after with
      | nil => simp [split] at more
      | cons next rest =>
        have behind : f.blks[before.length + 1]? = some next := by simp [split]
        exact ⟨next, rest, rfl, by rw [target, built.blk_id behind]⟩
    branches := by
      intro b member stays
      obtain ⟨i, found⟩ := List.mem_iff_getElem?.mp member
      exact (built.successors found stays).2.2
    returns := by
      intro b member returns
      obtain ⟨i, found⟩ := List.mem_iff_getElem?.mp member
      exact built.return_successors found returns
    params := fun b member => (plain b member).1
    args1 := fun b member => (plain b member).2.1
    args2 := fun b member => (plain b member).2.2.1
    visited := fun b member => (plain b member).2.2.2 }

/-- A parsed function is raw. -/
theorem ParserBuilt.raw {f : Fn} (parsed : ParserBuilt f) : Raw f := by
  obtain ⟨idx, source, built⟩ := parsed
  obtain ⟨chunks, built'⟩ := buildFunction_built built
  exact built'.raw

/-- The block graph `f` executes like the text `source`, whose identifiers stand for
temporaries through `ν`. -/
structure MeansText (source : Function) (f : Fn) (ν : String → Nat) : Prop where
  /-- different identifiers are different temporaries -/
  injective : Function.Injective ν
  /-- the temporaries are those of the parser -/
  numbers : Numbers ν f.tmps
  /-- the same instructions and decisions in the same order, also in runs that never end -/
  performs : ∀ {σ ε : Type} (I : Interp σ ε) (state : σ) (events : List ε),
    (textMachine I ν source).Performs (.start, state) events ↔
      (I.machine f).Performs (Interp.entry f, state) events
  /-- one returns where the other does, in the same state -/
  returns : ∀ {σ ε : Type} (I : Interp σ ε) (state : σ) (events : List ε) (final : σ),
    (textMachine I ν source).Halts (.start, state) events (.returned, final) ↔
      (I.machine f).Halts (Interp.entry f, state) events (.returned, final)
  /-- no jump misses its label and no statement follows the last one -/
  textRuns : ∀ {σ ε : Type} (I : Interp σ ε) (state : σ) (count : Nat),
    ((textMachine I ν source).run count (.start, state)).2.1 ≠ .stuck
  /-- no missing or destroyed successor is followed -/
  graphRuns : ∀ {σ ε : Type} (I : Interp σ ε) (state : σ) (count : Nat),
    ((I.machine f).run count (Interp.entry f, state)).2.1 ≠ .stuck
  /-- the successors of a block that does not return are blocks of the function -/
  successors : ∀ b ∈ f.blks, ¬ b.isReturn →
    (∃ id ∈ f.ids, b.s1 = some id) ∧ ∃ id ∈ f.ids, b.s2 = some id
  /-- a return block has none -/
  ends : ∀ b ∈ f.blks, b.isReturn → b.s1 = none ∧ b.s2 = none
  /-- the trailing block is no block of the function -/
  trailing : f.nblk ∉ f.ids

/-- A graph that is built of the chunks of a text means what the text says, under every numbering
that the table of temporaries extends to. -/
theorem Built.meansText {source : Function} {chunks : List Chunk} {f : Fn} {ν : String → Nat}
    (built : Built source chunks f) (numbers : Numbers ν f.tmps)
    (injective : Function.Injective ν) : MeansText source f ν := by
  have start {σ : Type} (state : σ) :
      AtChunk chunks (.start, state) (Interp.entry f, state) :=
    ⟨rfl, Or.inl ⟨rfl, built.entry_eq⟩⟩
  refine {
    injective
    numbers
    performs := fun I state events =>
      (graph_simulation I built numbers).performs_iff (start state) events
    returns := ?_
    textRuns := ?_
    graphRuns := ?_
    successors := ?_
    ends := ?_
    trailing := ?_ }
  · intro σ ε I state events final
    constructor
    · intro halted
      obtain ⟨⟨graph, _⟩, halted', rfl, related⟩ :=
        (graph_simulation I built numbers).halts_of_first (start state) halted
      simp only [reduceCtorEq, false_and, and_false, exists_false, false_or, true_and] at related
      subst graph
      exact halted'
    · intro halted
      obtain ⟨⟨text, _⟩, halted', rfl, related⟩ :=
        (graph_simulation I built numbers).halts_of_second (start state) halted
      simp only [reduceCtorEq, and_false, exists_false, false_or, and_true] at related
      subst text
      exact halted'
  · intro σ ε I state count stuck
    obtain ⟨_, _, _, related⟩ := (graph_simulation I built numbers).halts_of_first (start state)
      ⟨count, rfl, textMachine_stuck stuck⟩
    simp [stuck] at related
  · intro σ ε I state count stuck
    obtain ⟨long, _, related, _⟩ := (graph_simulation I built numbers).run (start state) count
    simp [AtChunk, stuck] at related
  · intro b member stays
    obtain ⟨i, found⟩ := List.mem_iff_getElem?.mp member
    obtain ⟨falls, more, branches⟩ := built.successors found stays
    rw [built.count] at more
    exact ⟨⟨i + 2, built.mem_ids.mpr ⟨i + 1, more, rfl⟩, falls⟩, branches⟩
  · intro b member returns
    obtain ⟨i, found⟩ := List.mem_iff_getElem?.mp member
    exact built.return_successors found returns
  · rw [built.mem_ids, built.nblk]
    rintro ⟨i, inside, equal⟩
    omega

/-- The block graph the parser builds means what the text says. -/
theorem graph_means_text {idx : Nat} {source : Function} {f : Fn}
    (parsed : buildFunction idx source = .ok f) : ∃ ν, MeansText source f ν := by
  obtain ⟨chunks, built⟩ := buildFunction_built parsed
  obtain ⟨ν, numbers, injective⟩ := built.table.exists_injective
  exact ⟨ν, built.meansText numbers injective⟩

/-- `tests/simple_loop/simple_loop.qbt`. -/
def simpleLoop : Function where
  name := "main"
  body := {
    items := [
      { stmt := .plain (.immInt .i27 "i" 0) },
      { stmt := .plain (.immInt .i27 "max" 1000) },
      { stmt := .plain (.immInt .i27 "sum" 0) },
      { labels := ["top"], stmt := .plain (.binary .add .i27 "sum" (.id "sum") (.id "i")) },
      { stmt := .plain (.binary .add .i27 "i" (.id "i") (.int 1)) },
      { stmt := .branch .lt (.id "i") (.id "max") "top" },
      { stmt := .call (.symbol "_putchar") [.id "sum"] [] },
      { stmt := .leave [] }] }

/-- The graph of the loop test means what its text says. -/
theorem graph_means_text_simpleLoop :
    ∃ f ν, buildFunction 0 simpleLoop = .ok f ∧ MeansText simpleLoop f ν := by
  have parsed : ∃ f, buildFunction 0 simpleLoop = .ok f := ⟨_, by rfl⟩
  obtain ⟨f, parsed⟩ := parsed
  obtain ⟨ν, means⟩ := graph_means_text parsed
  exact ⟨f, ν, parsed, means⟩

end Qbt.Frontend
