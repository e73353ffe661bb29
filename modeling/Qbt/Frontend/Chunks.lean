import Qbt.Frontend.Emission
import Qbt.Std.Lists

/-!
# Chunks of the source text

The parser cuts a body into blocks while it reads. A `Chunk` is the stretch of
statements one block holds: plain statements, closed either by a statement that ends
a block or by a label in front of the next statement. `Parsed` is the invariant that
the blocks built so far are those of a list of chunks that covers the text read so
far.
-/

namespace Qbt.Frontend

/-- The statements of one block. Only the first block holds parameters. -/
structure Chunk where
  params : List (VType × String) := []
  start : Nat
  plains : List Plain := []
  last : Option Stmt := none

namespace Chunk

/-- The position behind the chunk's last statement. -/
def stop (c : Chunk) : Nat := c.start + c.plains.length + c.last.toList.length

/-- The instructions of the chunk's block. -/
def insns (ν : String → Nat) (c : Chunk) : List Insn :=
  c.params.mapIdx (paramInsn ν) ++ c.plains.map (Plain.insn ν) ++
    c.last.toList.flatMap (Stmt.insns ν)

/-- How the chunk's block is left. -/
def exit (ν : String → Nat) (c : Chunk) : Exit :=
  match c.last with
  | none => .fall
  | some s => s.exit ν

/-- A block that has just been closed as the `i`-th of its function. -/
def exitBlk (i : Nat) (name : Option String) (insns : List Insn) (exit : Exit) : Blk :=
  let base : Blk := { name, id := i + 1, insns, cmp0 := .noclass, cmp1 := .noclass }
  let next := some (i + 2)
  match exit with
  | .fall => { base with btype := .j, s1 := next, s2 := next }
  | .goto label => { base with btype := .j, s1 := next, toLabel := some label }
  | .cond type a0 a1 label =>
    { base with btype := type, cmp0 := a0, cmp1 := a1, s1 := next, toLabel := some label }
  | .leave => { base with btype := .ret }

/-- The chunk's block when it has just been closed as the `i`-th of the function. -/
def blk (ν : String → Nat) (i : Nat) (name : Option String) (c : Chunk) : Blk :=
  exitBlk i name (c.insns ν) (c.exit ν)

@[simp] theorem blk_id (ν : String → Nat) (i : Nat) (name : Option String) (c : Chunk) :
    (c.blk ν i name).id = i + 1 := by
  unfold blk exitBlk
  cases c.exit ν <;> rfl

@[simp] theorem blk_insns (ν : String → Nat) (i : Nat) (name : Option String) (c : Chunk) :
    (c.blk ν i name).insns = c.insns ν := by
  unfold blk exitBlk
  cases c.exit ν <;> rfl

/-- The chunk's statements are those of the text from its start on. -/
structure Covers (items : List Item) (c : Chunk) : Prop where
  plains : ∀ i s, c.plains[i]? = some s →
    ∃ it, items[c.start + i]? = some it ∧ it.stmt = .plain s
  last : ∀ s, c.last = some s →
    ∃ it, items[c.start + c.plains.length]? = some it ∧ it.stmt = s

end Chunk

/-- A label of the text, with the position behind it, and its entry in the table of
labels: the entry's block starts at that position. -/
def LabelAt (chunks : List Chunk) (source entry : String × Nat) : Prop :=
  entry.1 = source.1 ∧
    ∃ i c, entry.2 = i + 1 ∧ chunks[i]? = some c ∧ c.start = source.2 ∧ c.params = []

/-- Consecutive chunks cover the text without a gap, and only the first one holds the
parameters. -/
structure Linked (params : List (VType × String)) (chunks : List Chunk) : Prop where
  next : ∀ (i : Nat) (c d : Chunk), chunks[i]? = some c → chunks[i + 1]? = some d →
    d.start = c.stop ∧ d.params = []
  first : ∀ c, chunks[0]? = some c → c.start = 0 ∧ c.params = params

/-- The last chunk may grow. -/
private theorem Linked.replace {inputs : List (VType × String)} {chunks : List Chunk}
    {current current' : Chunk} (linked : Linked inputs (chunks ++ [current]))
    (start : current'.start = current.start) (params : current'.params = current.params) :
    Linked inputs (chunks ++ [current']) where
  next := by
    intro i c d foundC foundD
    rcases Lists.getElem?_snoc_iff.mp foundD with oldD | ⟨here, rfl⟩
    · rcases Lists.getElem?_snoc_iff.mp foundC with oldC | ⟨last, rfl⟩
      · exact linked.next i c d (Lists.getElem?_append_of_some oldC)
          (Lists.getElem?_append_of_some oldD)
      · have inside := (List.getElem?_eq_some_iff.mp oldD).1
        omega
    · rcases Lists.getElem?_snoc_iff.mp foundC with oldC | ⟨last, rfl⟩
      · have link := linked.next i c current (Lists.getElem?_append_of_some oldC)
          (Lists.getElem?_snoc_iff.mpr (Or.inr ⟨here, rfl⟩))
        exact ⟨start.trans link.1, params.trans link.2⟩
      · omega
  first := by
    intro c found
    rcases Lists.getElem?_snoc_iff.mp found with old | ⟨here, rfl⟩
    · exact linked.first c (Lists.getElem?_append_of_some old)
    · rw [start, params]
      exact linked.first current (Lists.getElem?_snoc_iff.mpr (Or.inr ⟨here, rfl⟩))

/-- A chunk may be added behind the last one. -/
private theorem Linked.snoc {inputs : List (VType × String)} {chunks : List Chunk}
    {current added : Chunk} (linked : Linked inputs (chunks ++ [current]))
    (start : added.start = current.stop) (params : added.params = []) :
    Linked inputs (chunks ++ [current] ++ [added]) where
  next := by
    intro i c d foundC foundD
    rcases Lists.getElem?_snoc_iff.mp foundC with oldC | ⟨last, _⟩
    · rcases Lists.getElem?_snoc_iff.mp foundD with oldD | ⟨here, rfl⟩
      · exact linked.next i c d oldC oldD
      · rcases Lists.getElem?_snoc_iff.mp oldC with older | ⟨_, rfl⟩
        · have inside := (List.getElem?_eq_some_iff.mp older).1
          simp only [List.length_append, List.length_singleton] at here
          omega
        · exact ⟨start, params⟩
    · have inside := (List.getElem?_eq_some_iff.mp foundD).1
      simp only [List.length_append, List.length_singleton] at inside last
      omega
  first := by
    intro c found
    rcases Lists.getElem?_snoc_iff.mp found with old | ⟨here, _⟩
    · exact linked.first c old
    · simp at here

/-- The trailing chunk may be dropped. -/
theorem Linked.dropLast {inputs : List (VType × String)} {chunks : List Chunk}
    {current : Chunk} (linked : Linked inputs (chunks ++ [current])) : Linked inputs chunks where
  next i c d foundC foundD := linked.next i c d (Lists.getElem?_append_of_some foundC)
    (Lists.getElem?_append_of_some foundD)
  first c found := linked.first c (Lists.getElem?_append_of_some found)

/-- A parser of a function with parameters `inputs` has read `position` items and the
labels `labelled`, closed a block for each of `chunks` and stands in the block of
`current`. -/
structure Parsed (inputs : List (VType × String)) (items : List Item) (position : Nat)
    (labelled : List (String × Nat)) (chunks : List Chunk) (current : Chunk) (p : Parser) :
    Prop where
  count : p.f.blks.length = chunks.length
  finished : ∀ ν, Numbers ν p.f.tmps → ∀ (i : Nat) (c : Chunk) (b : Blk), chunks[i]? = some c →
    p.f.blks[i]? = some b → b = c.blk ν i b.name
  block : ∀ ν, Numbers ν p.f.tmps →
    p.b = { name := p.b.name, id := chunks.length + 1, insns := current.insns ν }
  nblk : p.f.nblk = chunks.length + 1
  table : TmpTable p.f
  belowBlks : ∀ b ∈ p.f.blks, b.Below p.f.ntmp
  belowInsns : ∀ n ∈ p.b.insns, n.Below p.f.ntmp
  unclosed : current.last = none
  stop : current.stop = position
  covers : ∀ c ∈ chunks ++ [current], c.Covers items
  linked : Linked inputs (chunks ++ [current])
  occupied : ∀ c ∈ chunks, c.params ≠ [] ∨ c.start < c.stop
  labels : List.Forall₂ (LabelAt (chunks ++ [current])) labelled p.f.labels

/-- Replacing the last chunk by one with the same start and parameters keeps every
label where it was. -/
private theorem LabelAt.replace {chunks : List Chunk} {current current' : Chunk}
    {source entry : String × Nat} (start : current'.start = current.start)
    (params : current'.params = current.params)
    (at' : LabelAt (chunks ++ [current]) source entry) :
    LabelAt (chunks ++ [current']) source entry := by
  obtain ⟨name, i, c, target, found, startEq, noParams⟩ := at'
  refine ⟨name, i, ?_⟩
  rcases Lists.getElem?_snoc_iff.mp found with old | ⟨here, rfl⟩
  · exact ⟨c, target, Lists.getElem?_append_of_some old, startEq, noParams⟩
  · exact ⟨current', target, Lists.getElem?_snoc_iff.mpr (Or.inr ⟨here, rfl⟩),
      start.trans startEq, params.trans noParams⟩

/-- What `do_new_block` makes of the current block. -/
def closedBlk (b : Blk) (next : Nat) (type : InsnType) (a0 a1 : Val) (label : Option String) :
    Blk :=
  let finished := { b with btype := type, cmp0 := a0, cmp1 := a1, toLabel := label }
  if type = .ret then finished
  else if type = .j ∧ label = none then { finished with s1 := some next, s2 := some next }
  else { finished with s1 := some next }

/-- Closing a block keeps its name. -/
private theorem closedBlk_name (b : Blk) (next : Nat) (type : InsnType) (a0 a1 : Val)
    (label : Option String) : (closedBlk b next type a0 a1 label).name = b.name := by
  unfold closedBlk
  split
  · rfl
  · split <;> rfl

private theorem closedBlk_below {b : Blk} {next n : Nat} {type : InsnType} {a0 a1 : Val}
    {label : Option String} (insns : ∀ i ∈ b.insns, i.Below n) (below : a0.Below n ∧ a1.Below n) :
    (closedBlk b next type a0 a1 label).Below n := by
  unfold closedBlk
  split
  · exact ⟨insns, below.1, below.2⟩
  · split
    · exact ⟨insns, below.1, below.2⟩
    · exact ⟨insns, below.1, below.2⟩

private theorem doNewBlock_spec {p p' : Parser} {type : InsnType} {a0 a1 : Val}
    {label : Option String} (closed : p.doNewBlock type a0 a1 label = .ok p') :
    p' = {
      f := {
        p.f with
        nblk := p.f.nblk + 1
        blks := p.f.blks ++ [closedBlk p.b (p.f.nblk + 1) type a0 a1 label] }
      b := { id := p.f.nblk + 1 }
      idx := p.idx } := by
  simp only [Parser.doNewBlock, finishBlock, newBlock, Result.bind_eq_ok, Result.pure_eq,
    Except.ok.injEq] at closed
  obtain ⟨finished, ⟨_, _, rfl⟩, rfl⟩ := closed
  rfl

namespace Parsed

variable {inputs : List (VType × String)} {items : List Item} {position : Nat}
  {labelled : List (String × Nat)} {chunks : List Chunk} {current : Chunk} {p p' : Parser}

/-- Inserted instructions stand behind those of the current chunk. -/
private theorem block_emits (parsed : Parsed inputs items position labelled chunks current p)
    {q : Parser} {added : (String → Nat) → List Insn} (emits : Emits p q added)
    {ν : String → Nat} (numbers : Numbers ν q.f.tmps) :
    q.b = { name := q.b.name, id := chunks.length + 1, insns := current.insns ν ++ added ν } := by
  rw [emits.code ν numbers, parsed.block ν (numbers.anti emits.grows)]

/-- Inserted instructions use temporaries that are numbered. -/
private theorem below_emits (parsed : Parsed inputs items position labelled chunks current p)
    {q : Parser} {added : (String → Nat) → List Insn} (emits : Emits p q added) :
    ∀ n ∈ q.b.insns, n.Below q.f.ntmp := by
  intro n member
  -- The table itself gives a numbering to read the inserted instructions with.
  have numbers := numbers_numbering q.f.tmps
  generalize numbering q.f.tmps = ν at numbers
  rw [emits.code ν numbers] at member
  rcases List.mem_append.mp member with old | new
  · exact (parsed.belowInsns n old).mono (emits.ntmp_le parsed.table)
  · exact emits.below parsed.table ν numbers n new

/-- Inserting the instructions of further plain statements keeps the invariant. -/
theorem extend (parsed : Parsed inputs items position labelled chunks current p)
    {added : (String → Nat) → List Insn} (emits : Emits p p' added) {current' : Chunk}
    (code : ∀ ν, current'.insns ν = current.insns ν ++ added ν)
    (start : current'.start = current.start) (params : current'.params = current.params)
    (unclosed : current'.last = none) (covers : current'.Covers items) :
    Parsed inputs items current'.stop labelled chunks current' p' where
  count := by rw [emits.graph]; exact parsed.count
  finished := by
    intro ν numbers i c b foundChunk foundBlk
    rw [emits.graph] at foundBlk
    exact parsed.finished ν (numbers.anti emits.grows) i c b foundChunk foundBlk
  block := by
    intro ν numbers
    rw [code ν]
    exact parsed.block_emits emits numbers
  nblk := by rw [emits.graph]; exact parsed.nblk
  table := emits.table parsed.table
  belowBlks := by
    rw [emits.graph]
    exact fun b member => (parsed.belowBlks b member).mono (emits.ntmp_le parsed.table)
  belowInsns := parsed.below_emits emits
  unclosed := unclosed
  stop := rfl
  covers := by
    intro c member
    rcases List.mem_append.mp member with old | new
    · exact parsed.covers c (List.mem_append_left _ old)
    · rw [List.mem_singleton.mp new]
      exact covers
  linked := parsed.linked.replace start params
  occupied := parsed.occupied
  labels := by
    rw [emits.graph]
    exact parsed.labels.imp fun source entry at' => at'.replace start params

/-- The blocks that are closed are those of the chunks, when one of each is added. -/
private theorem finished_snoc (parsed : Parsed inputs items position labelled chunks current p)
    {tmps : List (String × Nat)} (grows : p.f.tmps <+: tmps) {c : Chunk} {added : Blk}
    (closed : ∀ ν, Numbers ν tmps → added = c.blk ν chunks.length added.name) (ν : String → Nat)
    (numbers : Numbers ν tmps) {i : Nat} {d : Chunk} {b : Blk}
    (foundChunk : (chunks ++ [c])[i]? = some d) (foundBlk : (p.f.blks ++ [added])[i]? = some b) :
    b = d.blk ν i b.name := by
  rcases Lists.getElem?_snoc_iff.mp foundChunk with oldChunk | ⟨here, rfl⟩
  · rcases Lists.getElem?_snoc_iff.mp foundBlk with oldBlk | ⟨there, _⟩
    · exact parsed.finished ν (numbers.anti grows) i d b oldChunk oldBlk
    · have inside := (List.getElem?_eq_some_iff.mp oldChunk).1
      rw [parsed.count] at there
      omega
  · rcases Lists.getElem?_snoc_iff.mp foundBlk with oldBlk | ⟨_, rfl⟩
    · have inside := (List.getElem?_eq_some_iff.mp oldBlk).1
      rw [parsed.count] at inside
      omega
    · rw [here]
      exact closed ν numbers

/-- Closing the current block, after its last statement has inserted its
instructions, starts a new chunk behind that statement. -/
theorem close (parsed : Parsed inputs items position labelled chunks current p) {q : Parser}
    {added : (String → Nat) → List Insn} (emits : Emits p q added) {type : InsnType}
    {a0 a1 : Val} {label : Option String} (closed : q.doNewBlock type a0 a1 label = .ok p')
    {last : Option Stmt} {c : Chunk} (closing : c = { current with last := last })
    (code : ∀ ν, added ν = last.toList.flatMap (Stmt.insns ν))
    (exit : ∀ ν, Numbers ν q.f.tmps → ∀ i name insns,
      closedBlk { name, id := i + 1, insns } (i + 2) type a0 a1 label =
        Chunk.exitBlk i name insns (c.exit ν))
    (below : a0.Below q.f.ntmp ∧ a1.Below q.f.ntmp) (covers : c.Covers items)
    (occupied : c.params ≠ [] ∨ c.start < c.stop) :
    Parsed inputs items c.stop labelled (chunks ++ [c]) { start := c.stop } p' := by
  have start : c.start = current.start := by rw [closing]
  have params : c.params = current.params := by rw [closing]
  have insns : ∀ ν, c.insns ν = current.insns ν ++ added ν := by
    intro ν
    rw [closing, code ν]
    simp [Chunk.insns, parsed.unclosed]
  have nblk : q.f.nblk = chunks.length + 1 := by rw [emits.graph]; exact parsed.nblk
  have blks : q.f.blks = p.f.blks := by rw [emits.graph]
  -- The closed block, read with any numbering that agrees with the table.
  have closedEq : ∀ ν, Numbers ν q.f.tmps → closedBlk q.b (q.f.nblk + 1) type a0 a1 label =
      c.blk ν chunks.length (closedBlk q.b (q.f.nblk + 1) type a0 a1 label).name := by
    intro ν numbers
    rw [closedBlk_name, parsed.block_emits emits numbers, nblk, ← insns ν]
    exact exit ν numbers _ _ _
  rw [doNewBlock_spec closed]
  refine {
    count := by simp [blks, parsed.count]
    finished := fun ν numbers i d b foundChunk foundBlk => by
      simp only [blks] at foundBlk
      exact parsed.finished_snoc emits.grows closedEq ν numbers foundChunk foundBlk
    block := fun ν _ => by simp [nblk, Chunk.insns]
    nblk := by simp [nblk]
    table := ⟨(emits.table parsed.table).count, (emits.table parsed.table).numbers,
      (emits.table parsed.table).distinct⟩
    belowBlks := ?_
    belowInsns := by simp
    unclosed := rfl
    stop := by simp [Chunk.stop]
    covers := ?_
    linked := (parsed.linked.replace start params).snoc rfl rfl
    occupied := ?_
    labels := ?_ }
  · intro b member
    simp only [blks] at member
    rcases List.mem_append.mp member with old | new
    · exact (parsed.belowBlks b old).mono (emits.ntmp_le parsed.table)
    · rw [List.mem_singleton.mp new]
      exact closedBlk_below (parsed.below_emits emits) below
  · intro d member
    rcases List.mem_append.mp member with old | new
    · rcases List.mem_append.mp old with older | here
      · exact parsed.covers d (List.mem_append_left _ older)
      · rw [List.mem_singleton.mp here]
        exact covers
    · rw [List.mem_singleton.mp new]
      exact ⟨by simp, by simp⟩
  · intro d member
    rcases List.mem_append.mp member with old | new
    · exact parsed.occupied d old
    · rw [List.mem_singleton.mp new]
      exact occupied
  · rw [show q.f.labels = p.f.labels by rw [emits.graph]]
    refine parsed.labels.imp fun source entry at' => ?_
    obtain ⟨name, i, d, target, found, startEq, noParams⟩ := at'.replace start params
    exact ⟨name, i, d, target, Lists.getElem?_append_of_some found, startEq, noParams⟩

/-- A label in front of the next statement is entered for the current block, which
does not hold a statement yet. -/
private theorem addLabel (parsed : Parsed inputs items position labelled chunks current p)
    (id : String)
    (start : current.start = position) (params : current.params = []) :
    Parsed inputs items position (labelled ++ [(id, position)]) chunks current
      (Parser.doNewLabel { p with b := { p.b with name := some id } } id) := by
  have entry : LabelAt (chunks ++ [current]) (id, position) (id, p.b.id) := by
    have numbers₀ := numbers_numbering p.f.tmps
    generalize numbering p.f.tmps = ν₀ at numbers₀
    refine ⟨rfl, chunks.length, current, ?_, by simp, start, params⟩
    rw [parsed.block ν₀ numbers₀]
  exact { parsed with
    block := by
      intro ν numbers
      have block := parsed.block ν numbers
      simp only [Parser.doNewLabel]
      rw [block]
    table := ⟨parsed.table.count, parsed.table.numbers, parsed.table.distinct⟩
    labels := List.rel_append parsed.labels (.cons entry .nil) }

/-- A label closes the current block unless it is still empty. -/
theorem label (parsed : Parsed inputs items position labelled chunks current p) {id : String}
    (acted : p.label id = .ok p') :
    ∃ chunks' current',
      Parsed inputs items position (labelled ++ [(id, position)]) chunks' current' p' := by
  have numbers₀ := numbers_numbering p.f.tmps
  generalize numbering p.f.tmps = ν₀ at numbers₀
  have insns : p.b.insns = current.insns ν₀ := by rw [parsed.block ν₀ numbers₀]
  have stop := parsed.stop
  simp only [Chunk.insns, parsed.unclosed, Option.toList_none, List.flatMap_nil,
    List.append_nil] at insns
  simp only [Chunk.stop, parsed.unclosed, Option.toList_none, List.length_nil] at stop
  unfold Parser.label at acted
  by_cases empty : p.b.insns.isEmpty
  · rw [if_pos empty] at acted
    simp only [Result.pure_eq, Except.ok.injEq] at acted
    subst acted
    rw [List.isEmpty_iff.mp empty] at insns
    obtain ⟨noParams, noPlains⟩ := List.append_eq_nil_iff.mp insns.symm
    have params : current.params = [] := by simpa using noParams
    have plains : current.plains = [] := by simpa using noPlains
    rw [plains] at stop
    exact ⟨chunks, current, parsed.addLabel id stop params⟩
  · rw [if_neg empty] at acted
    simp only [Result.bind_eq_ok, Result.pure_eq, Except.ok.injEq] at acted
    obtain ⟨q, closed, rfl⟩ := acted
    have occupied : current.params ≠ [] ∨ current.start < current.stop := by
      by_contra vacant
      rw [not_or, not_not] at vacant
      obtain ⟨noParams, noRoom⟩ := vacant
      have plains : current.plains = [] := by
        apply List.eq_nil_of_length_eq_zero
        simp only [Chunk.stop] at noRoom
        omega
      rw [noParams, plains] at insns
      exact empty (by simp [insns])
    have unchanged : current = { current with last := none } := by
      have unclosed := parsed.unclosed
      cases current
      simp only at unclosed
      rw [unclosed]
    have next := parsed.close (Emits.refl p) closed unchanged (fun _ => rfl)
      (fun ν _ i name code => by simp [closedBlk, Chunk.exit, parsed.unclosed, Chunk.exitBlk])
      ⟨trivial, trivial⟩ (parsed.covers current (by simp)) occupied
    rw [parsed.stop] at next
    exact ⟨_, _, next.addLabel id rfl rfl⟩

/-- All labels in front of a statement. -/
theorem labels' (parsed : Parsed inputs items position labelled chunks current p)
    {ids : List String}
    (acted : ids.foldlM Parser.label p = .ok p') :
    ∃ chunks' current',
      Parsed inputs items position (labelled ++ ids.map (·, position)) chunks' current' p' := by
  induction ids generalizing labelled chunks current p with
  | nil =>
    simp only [List.foldlM_nil, Result.pure_eq, Except.ok.injEq] at acted
    subst acted
    exact ⟨chunks, current, by simpa using parsed⟩
  | cons id rest ih =>
    simp only [List.foldlM_cons, Result.bind_eq_ok] at acted
    obtain ⟨q, first, remaining⟩ := acted
    obtain ⟨_, _, parsed'⟩ := parsed.label first
    simpa using ih parsed' remaining

/-- A plain statement joins the current chunk. -/
private theorem plain (parsed : Parsed inputs items position labelled chunks current p) {it : Item}
    (here : items[position]? = some it) {s : Plain} (isPlain : it.stmt = .plain s)
    (acted : p.plain s = .ok p') :
    Parsed inputs items (position + 1) labelled chunks
      { current with plains := current.plains ++ [s] }
      p' := by
  have stop := parsed.stop
  simp only [Chunk.stop, parsed.unclosed, Option.toList_none, List.length_nil] at stop
  have old := parsed.covers current (by simp)
  have covers : Chunk.Covers items { current with plains := current.plains ++ [s] } := by
    refine ⟨fun i s' found => ?_, fun s' found => ?_⟩
    · rcases Lists.getElem?_snoc_iff.mp found with earlier | ⟨rfl, rfl⟩
      · exact old.plains i s' earlier
      · have place : current.start + current.plains.length = position := by omega
        exact ⟨it, by rw [place]; exact here, isPlain⟩
    · simp [parsed.unclosed] at found
  have code : ∀ ν, Chunk.insns ν { current with plains := current.plains ++ [s] } =
      current.insns ν ++ [s.insn ν] := by
    intro ν
    simp [Chunk.insns, parsed.unclosed]
  have extended := parsed.extend (Parser.plain_emits acted) code rfl rfl parsed.unclosed covers
  have stop' : Chunk.stop { current with plains := current.plains ++ [s] } = position + 1 := by
    simp only [Chunk.stop, parsed.unclosed, Option.toList_none, List.length_nil,
      List.length_append, List.length_singleton]
    omega
  rwa [stop'] at extended

/-- A statement that ends a block closes the current chunk. -/
private theorem ending (parsed : Parsed inputs items position labelled chunks current p) {it : Item}
    (here : items[position]? = some it) {q : Parser} {type : InsnType} {a0 a1 : Val}
    {label : Option String} (emits : Emits p q fun ν => it.stmt.insns ν)
    (closed : q.doNewBlock type a0 a1 label = .ok p')
    (exit : ∀ ν, Numbers ν q.f.tmps → ∀ i name insns,
      closedBlk { name, id := i + 1, insns } (i + 2) type a0 a1 label =
        Chunk.exitBlk i name insns (it.stmt.exit ν))
    (below : a0.Below q.f.ntmp ∧ a1.Below q.f.ntmp) :
    ∃ chunks' current', Parsed inputs items (position + 1) labelled chunks' current' p' := by
  have stop := parsed.stop
  simp only [Chunk.stop, parsed.unclosed, Option.toList_none, List.length_nil] at stop
  have old := parsed.covers current (by simp)
  have covers : Chunk.Covers items { current with last := some it.stmt } := by
    refine ⟨old.plains, fun s found => ?_⟩
    obtain rfl : it.stmt = s := by simpa using found
    have place : current.start + current.plains.length = position := by omega
    exact ⟨it, by rw [place]; exact here, rfl⟩
  have stop' : Chunk.stop { current with last := some it.stmt } = position + 1 := by
    simp only [Chunk.stop, Option.toList_some, List.length_singleton]
    omega
  have closing : ({ current with last := some it.stmt } : Chunk) =
      { current with last := some it.stmt } := rfl
  have next := parsed.close emits closed closing (fun ν => by simp) exit below covers
    (Or.inr (by rw [stop']; simp only; omega))
  rw [stop'] at next
  exact ⟨_, _, next⟩

/-- A statement advances the text by one position. -/
theorem stmt (parsed : Parsed inputs items position labelled chunks current p) {it : Item}
    (here : items[position]? = some it) (acted : p.stmt it.stmt = .ok p') :
    ∃ chunks' current', Parsed inputs items (position + 1) labelled chunks' current' p' := by
  cases kind : it.stmt with
  | plain s =>
    rw [kind] at acted
    exact ⟨_, _, parsed.plain here kind acted⟩
  | branch op left right target =>
    rw [kind] at acted
    simp only [Parser.stmt, Result.bind_eq_ok] at acted
    obtain ⟨a0, found0, a1, found1, closed⟩ := acted
    have spec0 := Parser.arg_spec found0
    have spec1 := Parser.arg_spec found1
    refine parsed.ending here (by rw [kind]; exact Emits.refl p) closed ?_
      ⟨spec0.2 parsed.table, spec1.2 parsed.table⟩
    intro ν numbers i name insns
    rw [kind, spec0.1 ν numbers, spec1.1 ν numbers]
    cases op <;> rfl
  | branchNz operand target =>
    rw [kind] at acted
    simp only [Parser.stmt, Result.bind_eq_ok] at acted
    obtain ⟨a0, found0, closed⟩ := acted
    have spec0 := Parser.arg_spec found0
    refine parsed.ending here (by rw [kind]; exact Emits.refl p) closed ?_
      ⟨spec0.2 parsed.table, trivial⟩
    intro ν numbers i name insns
    rw [kind, spec0.1 ν numbers]
    rfl
  | branchEz operand target =>
    rw [kind] at acted
    simp only [Parser.stmt, Result.bind_eq_ok] at acted
    obtain ⟨a0, found0, closed⟩ := acted
    have spec0 := Parser.arg_spec found0
    refine parsed.ending here (by rw [kind]; exact Emits.refl p) closed ?_
      ⟨spec0.2 parsed.table, trivial⟩
    intro ν numbers i name insns
    rw [kind, spec0.1 ν numbers]
    rfl
  | jump target =>
    rw [kind] at acted
    refine parsed.ending here (by rw [kind]; exact Emits.refl p) acted ?_ ⟨trivial, trivial⟩
    intro ν numbers i name insns
    rw [kind]
    rfl
  | call target args rets =>
    rw [kind] at acted
    obtain ⟨q, emits, closed⟩ := Parser.call_emits acted
    refine parsed.ending here (by rw [kind]; exact emits) closed ?_ ⟨trivial, trivial⟩
    intro ν numbers i name insns
    rw [kind]
    rfl
  | leave args =>
    rw [kind] at acted
    simp only [Parser.stmt, Result.bind_eq_ok] at acted
    obtain ⟨q, passed, closed⟩ := acted
    have emits := (Parser.numbered_foldlM_emits passed).withIdx p.idx q.idx
    simp only [Parser.resetIndex, Nat.zero_add] at emits
    refine parsed.ending here (by rw [kind]; exact emits) closed ?_ ⟨trivial, trivial⟩
    intro ν numbers i name insns
    rw [kind]
    rfl

/-- All items of a body, one after the other. -/
theorem items' (parsed : Parsed inputs items position labelled chunks current p) {rest : List Item}
    (suffix : items = items.take position ++ rest) (reached : position ≤ items.length)
    (acted : rest.foldlM Parser.item p = .ok p') :
    ∃ chunks' current',
      Parsed inputs items items.length (labelled ++ labelsFrom position rest)
        chunks' current' p' := by
  induction rest generalizing position labelled chunks current p with
  | nil =>
    simp only [List.foldlM_nil, Result.pure_eq, Except.ok.injEq] at acted
    subst acted
    have all : position = items.length := by
      have lengths := congrArg List.length suffix
      simp only [List.append_nil, List.length_take] at lengths
      omega
    exact ⟨chunks, current, by simpa [labelsFrom, all] using parsed⟩
  | cons it rest ih =>
    simp only [List.foldlM_cons, Result.bind_eq_ok, Parser.item] at acted
    obtain ⟨q, ⟨middle, entered, read⟩, remaining⟩ := acted
    have taken : (items.take position).length = position := by
      rw [List.length_take]
      omega
    have here : items[position]? = some it := by
      rw [suffix, List.getElem?_append_right (by omega), taken]
      simp
    obtain ⟨_, _, parsed'⟩ := parsed.labels' entered
    obtain ⟨_, _, parsed''⟩ := parsed'.stmt here read
    have inside : position < items.length := (List.getElem?_eq_some_iff.mp here).1
    have suffix' : items = items.take (position + 1) ++ rest := by
      rw [List.take_add_one, here, List.append_assoc]
      exact suffix
    simpa [labelsFrom, List.append_assoc] using ih parsed'' suffix' inside remaining

/-- The parameters open the first chunk. -/
theorem initial (idx : Nat) (inputs : List (VType × String)) (items : List Item) :
    Parsed inputs items 0 [] [] { params := inputs, start := 0 }
      (inputs.foldl (fun p entry => p.param entry.1 entry.2) (newFunction idx).resetIndex) := by
  have emits := Parser.params_emits (newFunction idx).resetIndex inputs
  have table : TmpTable (newFunction idx).resetIndex.f := ⟨rfl, rfl, List.nodup_nil⟩
  generalize inputs.foldl (fun p entry => p.param entry.1 entry.2) (newFunction idx).resetIndex = p
    at emits
  have blks : p.f.blks = [] := by rw [emits.graph]; rfl
  have numbers₀ := numbers_numbering p.f.tmps
  generalize numbering p.f.tmps = ν₀ at numbers₀
  refine {
    count := by rw [blks]; rfl
    finished := by simp
    block := ?_
    nblk := by rw [emits.graph]; rfl
    table := emits.table table
    belowBlks := by simp [blks]
    belowInsns := ?_
    unclosed := rfl
    stop := rfl
    covers := ?_
    linked := ⟨by simp, by simp⟩
    occupied := by simp
    labels := by rw [emits.graph]; exact .nil }
  · intro ν numbers
    rw [emits.code ν numbers]
    simp [newFunction, newBlock, Parser.resetIndex, Chunk.insns]
  · intro n member
    rw [emits.code ν₀ numbers₀] at member
    exact emits.below table ν₀ numbers₀ n (by simpa [newFunction, newBlock,
      Parser.resetIndex] using member)
  · intro c member
    rw [List.mem_singleton.mp member]
    exact ⟨by simp, by simp⟩

/-- A whole body. -/
theorem body (parsed : Parsed inputs items 0 [] chunks current p) {source : Body}
    (same : source.items = items) (acted : p.body source = .ok p') :
    ∃ chunks' current',
      Parsed inputs items items.length source.labels chunks' current' p' := by
  simp only [Parser.body, Result.bind_eq_ok] at acted
  obtain ⟨q, entered, read⟩ := acted
  obtain ⟨_, _, parsed'⟩ := parsed.labels' entered
  have result := parsed'.items' (by simpa using same.symm) (Nat.zero_le _) read
  simpa [Body.labels, same] using result

end Parsed

end Qbt.Frontend
