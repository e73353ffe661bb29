import Qbt.Frontend.Chunks

/-!
# The blocks of a finished function

`finish_function` pops the trailing empty block and resolves the labels. `Built`
describes the function it leaves behind block by block: the `i`-th block holds the
`i`-th chunk of the text, falls through to the next block and branches to the block
its label was entered for.
-/

namespace Qbt.Frontend

/-- Where a block with this exit continues when its branch is taken. -/
def Exit.target (f : Fn) (next : Nat) : Exit → Option Nat
  | .fall => some next
  | .goto label | .cond _ _ _ label => Parser.labelFind f label
  | .leave => none

namespace Chunk

/-- Only a return statement makes a return block. -/
theorem blk_ret_iff (ν : String → Nat) (i : Nat) (name : Option String) (c : Chunk) :
    (c.blk ν i name).btype = .ret ↔ c.exit ν = .leave := by
  unfold blk exitBlk exit
  cases c.last with
  | none => simp
  | some s =>
    cases s with
    | branch op left right label => cases op <;> simp [Stmt.exit, Cond.branch]
    | _ => simp [Stmt.exit]

/-- A conditional exit is neither a jump nor a return. -/
theorem exit_cond {ν : String → Nat} {c : Chunk} {type : InsnType} {a0 a1 : Val}
    {label : String} (exit : c.exit ν = .cond type a0 a1 label) : type ≠ .ret ∧ type ≠ .j := by
  unfold Chunk.exit at exit
  cases closes : c.last with
  | none => simp [closes] at exit
  | some s =>
    cases s with
    | branch op left right target =>
      simp only [closes, Stmt.exit, Exit.cond.injEq] at exit
      rw [← exit.1]
      cases op <;> simp [Cond.branch]
    | branchNz operand target =>
      simp only [closes, Stmt.exit, Exit.cond.injEq] at exit
      simp [← exit.1]
    | branchEz operand target =>
      simp only [closes, Stmt.exit, Exit.cond.injEq] at exit
      simp [← exit.1]
    | _ => simp [closes, Stmt.exit] at exit

/-- Which chunks end with a return does not depend on the numbering. -/
theorem exit_leave {ν : String → Nat} {c : Chunk} (leave : c.exit ν = .leave)
    (other : String → Nat) : c.exit other = .leave := by
  unfold exit at leave ⊢
  cases closes : c.last with
  | none => simp [closes] at leave
  | some s => cases s <;> simp [closes, Stmt.exit] at leave ⊢

/-- The label a block still has to resolve. -/
theorem blk_toLabel (ν : String → Nat) (i : Nat) (name : Option String) (c : Chunk) :
    (c.blk ν i name).toLabel =
      match c.exit ν with
      | .goto label | .cond _ _ _ label => some label
      | .fall | .leave => none := by
  unfold blk exitBlk
  cases c.exit ν <;> rfl

end Chunk

/-- A function whose blocks hold the consecutive chunks of the text. -/
structure Built (source : Function) (chunks : List Chunk) (f : Fn) : Prop where
  count : f.blks.length = chunks.length
  blks : ∀ ν, Numbers ν f.tmps → ∀ (i : Nat) (c : Chunk) (b : Blk),
    chunks[i]? = some c → f.blks[i]? = some b →
      b = { c.blk ν i b.name with s2 := (c.exit ν).target f (i + 2) }
  nonempty : 0 < chunks.length
  nblk : f.nblk = chunks.length + 1
  table : TmpTable f
  below : ∀ b ∈ f.blks, b.Below f.ntmp
  covers : ∀ c ∈ chunks, c.Covers source.body.items
  linked : Linked source.params chunks
  ends : ∀ (i : Nat) (c : Chunk), chunks[i]? = some c → i + 1 = chunks.length →
    c.stop = source.body.items.length
  occupied : ∀ c ∈ chunks, c.params ≠ [] ∨ c.start < c.stop
  labels : List.Forall₂ (LabelAt chunks) source.body.labels f.labels
  found : ∀ b ∈ f.blks, ∀ label, b.toLabel = some label →
    ∃ id, Parser.labelFind f label = some id
  final : ∀ ν (i : Nat) (c : Chunk), chunks[i]? = some c → i + 1 = chunks.length →
    c.exit ν = .leave

/-- The labels of an item list stand in front of one of its statements. -/
private theorem labelsFrom_lt {start : Nat} {items : List Item} {entry : String × Nat}
    (member : entry ∈ labelsFrom start items) : entry.2 < start + items.length := by
  induction items generalizing start with
  | nil => simp [labelsFrom] at member
  | cons it rest ih =>
    simp only [labelsFrom, List.mem_append, List.mem_map] at member
    rw [List.length_cons]
    rcases member with ⟨name, _, rfl⟩ | later
    · simp only
      omega
    · have bound := ih later
      omega

/-- What `resolve` returns for a block. -/
private theorem resolve_spec {f : Fn} {b b' : Blk} (resolved : Parser.resolve f b = .ok b') :
    (b.toLabel = none ∧ b' = b) ∨
      ∃ label id, b.toLabel = some label ∧ Parser.labelFind f label = some id ∧
        b' = { b with s2 := some id } := by
  unfold Parser.resolve at resolved
  cases target : b.toLabel with
  | none =>
    simp only [target, Result.pure_eq, Except.ok.injEq] at resolved
    exact Or.inl ⟨rfl, resolved.symm⟩
  | some label =>
    simp only [target] at resolved
    cases entry : Parser.labelFind f label with
    | none => simp [entry] at resolved
    | some id =>
      simp only [entry, Result.pure_eq, Except.ok.injEq] at resolved
      exact Or.inr ⟨label, id, rfl, entry, resolved.symm⟩

/-- Resolving the label of a chunk's block. -/
private theorem resolve_blk {f : Fn} {ν : String → Nat} {i : Nat} {c : Chunk} {b b' : Blk}
    (block : b = c.blk ν i b.name) (resolved : Parser.resolve f b = .ok b') :
    b' = { c.blk ν i b'.name with s2 := (c.exit ν).target f (i + 2) } := by
  have named : b'.name = b.name := by
    rcases resolve_spec resolved with ⟨_, rfl⟩ | ⟨_, _, _, _, rfl⟩ <;> rfl
  have label := Chunk.blk_toLabel ν i b.name c
  rw [← block] at label
  rw [named]
  rcases resolve_spec resolved with ⟨none, rfl⟩ | ⟨name, id, some, entry, rfl⟩
  · cases exit : c.exit ν with
    | fall => rw [block]; simp [Chunk.blk, Chunk.exitBlk, exit, Exit.target]
    | leave => rw [block]; simp [Chunk.blk, Chunk.exitBlk, exit, Exit.target]
    | goto target => simp [exit, none] at label
    | cond type a0 a1 target => simp [exit, none] at label
  · cases exit : c.exit ν with
    | fall => simp [exit, some] at label
    | leave => simp [exit, some] at label
    | goto target =>
      obtain rfl : name = target := by simpa [exit, some] using label
      rw [← block]
      simp [Exit.target, entry]
    | cond type a0 a1 target =>
      obtain rfl : name = target := by simpa [exit, some] using label
      rw [← block]
      simp [Exit.target, entry]

section Finish

variable {inputs : List (VType × String)} {items : List Item} {position : Nat}
  {labelled : List (String × Nat)} {chunks : List Chunk} {current : Chunk} {p : Parser}

/-- The trailing block holds nothing, so that its chunk starts behind all that was read. -/
private theorem Parsed.vacant (parsed : Parsed inputs items position labelled chunks current p)
    (empty : p.b.insns.isEmpty = true) : current.start = position := by
  have numbers := numbers_numbering p.f.tmps
  generalize numbering p.f.tmps = ν at numbers
  have insns : current.insns ν = [] := by
    have none := List.isEmpty_iff.mp empty
    rw [parsed.block ν numbers] at none
    exact none
  have plains : current.plains = [] := by
    simp only [Chunk.insns, List.append_eq_nil_iff] at insns
    simpa using insns.1.2
  have stop := parsed.stop
  simpa [Chunk.stop, plains, parsed.unclosed] using stop

/-- The last chunk ends where the trailing one starts. -/
private theorem Parsed.stop_last (parsed : Parsed inputs items position labelled chunks current p)
    {i : Nat} {c : Chunk} (found : chunks[i]? = some c) (last : i + 1 = chunks.length) :
    c.stop = current.start :=
  (parsed.linked.next i c current (Lists.getElem?_append_of_some found)
    (Lists.getElem?_snoc_iff.mpr (Or.inr ⟨last, rfl⟩))).1.symm

/-- The last block that is kept is that of the last chunk. -/
private theorem Parsed.exists_last
    (parsed : Parsed inputs items position labelled chunks current p) {last : Blk}
    (foundLast : p.f.blks.getLast? = some last) : ∃ i c, chunks[i]? = some c ∧
      p.f.blks[i]? = some last ∧ i + 1 = chunks.length := by
  have closing : p.f.blks = p.f.blks.dropLast ++ [last] :=
    (List.dropLast_append_getLast? last foundLast).symm
  have lengths : p.f.blks.length = p.f.blks.dropLast.length + 1 := by
    conv_lhs => rw [closing]
    simp
  have inside : p.f.blks.dropLast.length < chunks.length := by
    rw [← parsed.count]
    omega
  refine ⟨_, _, List.getElem?_eq_getElem inside, ?_, by rw [← parsed.count, lengths]⟩
  conv_lhs => rw [closing]
  simp

/-- A return block is the block of a chunk that ends with a return, and has no edges. -/
private theorem Parsed.leave_last
    (parsed : Parsed inputs items position labelled chunks current p) {last : Blk} {i : Nat}
    {c : Chunk} (foundChunk : chunks[i]? = some c) (foundBlk : p.f.blks[i]? = some last)
    (returns : last.isReturn = true) : (∀ ν, c.exit ν = .leave) ∧
      ({ last with s1 := none, s2 := none } : Blk) = last := by
  have numbers := numbers_numbering p.f.tmps
  generalize numbering p.f.tmps = ν at numbers
  have block := parsed.finished ν numbers i c last foundChunk foundBlk
  have leave : c.exit ν = .leave := by
    apply (Chunk.blk_ret_iff ν i last.name c).mp
    rw [← block]
    simpa [Blk.isReturn] using returns
  refine ⟨Chunk.exit_leave leave, ?_⟩
  rw [block]
  simp [Chunk.blk, Chunk.exitBlk, leave]

/-- A return stands somewhere in the text. -/
private theorem nonempty_of_leave {ν : String → Nat} {c : Chunk} (leave : c.exit ν = .leave)
    (covers : c.Covers items) : 0 < items.length := by
  cases closes : c.last with
  | none => simp [Chunk.exit, closes] at leave
  | some s =>
    obtain ⟨it, here, _⟩ := covers.last s closes
    have bound := (List.getElem?_eq_some_iff.mp here).1
    omega

/-- The position behind the text starts no chunk that a label could stand for. -/
private theorem labelAt_kept {source : Body} (nonempty : 0 < source.items.length)
    (vacant : current.start = source.items.length) {label : String × Nat}
    (member : label ∈ source.labels) {entry : String × Nat}
    (labelled : LabelAt (chunks ++ [current]) label entry) : LabelAt chunks label entry := by
  obtain ⟨named, i, c, target, foundChunk, start, params⟩ := labelled
  have early : label.2 < source.items.length := by
    rcases List.mem_append.mp member with lead | behind
    · obtain ⟨_, _, rfl⟩ := List.mem_map.mp lead
      exact nonempty
    · simpa using labelsFrom_lt behind
  rcases Lists.getElem?_snoc_iff.mp foundChunk with old | ⟨_, rfl⟩
  · exact ⟨named, i, c, target, old, start, params⟩
  · omega

/-- Resolving a label changes `s2` only. -/
private theorem resolve_below {f : Fn} {b b' : Blk} {n : Nat}
    (resolved : Parser.resolve f b = .ok b') (below : b.Below n) : b'.Below n := by
  rcases resolve_spec resolved with ⟨_, rfl⟩ | ⟨_, _, _, _, rfl⟩
  · exact below
  · exact ⟨below.insns, below.cmp0, below.cmp1⟩

/-- A label that is resolved has an entry. -/
private theorem resolve_found {f : Fn} {b b' : Blk} (resolved : Parser.resolve f b = .ok b')
    {label : String} (target : b'.toLabel = some label) :
    ∃ id, Parser.labelFind f label = some id := by
  rcases resolve_spec resolved with ⟨none, rfl⟩ | ⟨name, id, some, entry, rfl⟩
  · rw [none] at target
    cases target
  · obtain rfl : name = label := by simpa [some] using target
    exact ⟨id, entry⟩

end Finish

/-- `finish_function` turns the blocks of a completely read body into a built
function. -/
theorem Parsed.finish {source : Function} {chunks : List Chunk} {current : Chunk} {p : Parser}
    {name : String} {f : Fn}
    (parsed : Parsed source.params source.body.items source.body.items.length
      source.body.labels chunks current p)
    (finished : p.finishFunction name = .ok f) : Built source chunks f := by
  simp only [Parser.finishFunction, Result.bind_eq_ok, Result.check_eq_ok] at finished
  obtain ⟨_, empty, finished⟩ := finished
  cases foundLast : p.f.blks.getLast? with
  | none => simp [foundLast] at finished
  | some last =>
    simp only [foundLast, Result.bind_eq_ok, Result.check_eq_ok, Result.pure_eq,
      Except.ok.injEq, Result.mapM_eq_ok] at finished
    obtain ⟨_, returns, resolved, resolves, rfl⟩ := finished
    obtain ⟨i, final, foundFinal, atLast, isFinal⟩ := parsed.exists_last foundLast
    obtain ⟨leave, unlinked⟩ := parsed.leave_last foundFinal atLast returns
    rw [unlinked, List.dropLast_append_getLast? last foundLast] at resolves
    have vacant := parsed.vacant empty
    have covers (c : Chunk) (member : c ∈ chunks) : c.Covers source.body.items :=
      parsed.covers c (List.mem_append_left _ member)
    have nonempty : 0 < source.body.items.length :=
      nonempty_of_leave (leave fun _ => 0) (covers final (List.mem_of_getElem? foundFinal))
    exact {
      count := by rw [← parsed.count]; exact resolves.length_eq.symm
      blks := by
        intro ν numbers i c b' foundChunk found
        obtain ⟨b, foundBlk, resolves'⟩ := Lists.getElem?_of_forall₂ resolves found
        exact resolve_blk (parsed.finished ν numbers i c b foundChunk foundBlk) resolves'
      nonempty := by omega
      nblk := parsed.nblk
      table := ⟨parsed.table.count, parsed.table.numbers, parsed.table.distinct⟩
      below := by
        intro b' member
        obtain ⟨b, listed, resolves'⟩ := Lists.mem_of_forall₂ resolves member
        exact resolve_below resolves' (parsed.belowBlks b listed)
      covers
      linked := parsed.linked.dropLast
      ends := fun i c found isLast => (parsed.stop_last found isLast).trans vacant
      occupied := parsed.occupied
      labels := ((List.forall₂_and_left _ _).mpr ⟨fun _ member => member, parsed.labels⟩).imp
        fun label entry found => labelAt_kept nonempty vacant found.1 found.2
      found := by
        intro b' member label target
        obtain ⟨b, -, resolves'⟩ := Lists.mem_of_forall₂ resolves member
        exact resolve_found resolves' target
      final := by
        intro ν j c foundChunk isLast
        obtain rfl : j = i := by omega
        obtain rfl : final = c := Option.some.inj (foundFinal.symm.trans foundChunk)
        exact leave ν }

end Qbt.Frontend
