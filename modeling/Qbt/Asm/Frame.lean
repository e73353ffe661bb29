import Qbt.Asm.Machine

/-!
# Frames

The prologue stores the frame pointer, the return address and the callee-saved registers of a
function below the stack pointer it is called with. The body leaves these words alone, so the
epilogue can load them again, wherever control has gone in between.
-/

namespace Qbt.Asm

variable {T : Type}

/-- The number of trytes of an access. -/
def Width.size : Width → Int
  | .word => 3
  | .tryte => 1

section Memory

variable {E : Encoding T} {mem mem' : Int → T} {a b w : Int}

/-- A store changes the trytes of its own access only. -/
theorem storeMem_of_outside {width : Width} {i : Int} (outside : i < a ∨ a + width.size ≤ i) :
    storeMem E width mem a w i = mem i := by
  cases width with
  | word =>
    simp only [Width.size] at outside
    simp only [storeMem]
    rw [if_neg (by omega), if_neg (by omega), if_neg (by omega)]
  | tryte =>
    simp only [Width.size] at outside
    exact Function.update_of_ne (by omega) _ _

/-- A word depends on its three addresses only. -/
theorem loadMem_congr (same : ∀ i, b ≤ i → i < b + 3 → mem' i = mem i) :
    loadMem E .word mem' b = loadMem E .word mem b := by
  have trytes : (fun i : Fin 3 => mem' (b + i)) = fun i : Fin 3 => mem (b + i) := by
    funext i
    exact same _ (by omega) (by omega)
  rw [loadMem, loadMem, trytes]

/-- A word that has been stored is loaded back. -/
theorem loadMem_storeMem_self (lawful : E.Lawful) :
    loadMem E .word (storeMem E .word mem a w) a = w := by
  have trytes : (fun i : Fin 3 => storeMem E .word mem a w (a + i)) = E.split w := by
    funext i
    match i with
    | 0 => simp [storeMem]
    | 1 =>
      have first : a + 1 ≠ a := by omega
      change storeMem E .word mem a w (a + 1) = E.split w 1
      simp only [storeMem, if_neg first, if_true]
    | 2 =>
      have first : a + 2 ≠ a := by omega
      have second : a + 2 ≠ a + 1 := by omega
      change storeMem E .word mem a w (a + 2) = E.split w 2
      simp only [storeMem, if_neg first, if_neg second, if_true]
  rw [loadMem, trytes, lawful.join_split]

/-- A store beside a word leaves it alone. -/
theorem loadMem_storeMem_of_disjoint {width : Width}
    (disjoint : b + 3 ≤ a ∨ a + width.size ≤ b) :
    loadMem E .word (storeMem E width mem a w) b = loadMem E .word mem b :=
  loadMem_congr fun i from' below => storeMem_of_outside (by omega)

end Memory

/-- The first 24 saved registers are in the table. -/
theorem sreg_mem {k : Nat} (inside : k < 24) : sreg k ∈ rsMap := by
  have inside' : k < rsMap.length := inside
  rw [sreg, List.getD_eq_getElem?_getD, List.getElem?_eq_getElem inside', Option.getD_some]
  exact List.getElem_mem inside'

/-- Past its end the table of saved registers names `x0`. -/
theorem sreg_outside {k : Nat} (outside : 24 ≤ k) : sreg k = rx0 := by
  have outside' : rsMap.length ≤ k := outside
  rw [sreg, List.getD_eq_getElem?_getD, List.getElem?_eq_none outside', Option.getD_none]

theorem rsMap_nodup : rsMap.Nodup := by decide

/-- Saved registers of different slots differ. -/
theorem sreg_injective {j k : Nat} (insideJ : j < 24) (insideK : k < 24) (same : sreg j = sreg k) :
    j = k := by
  have insideJ' : j < rsMap.length := insideJ
  have insideK' : k < rsMap.length := insideK
  simp only [sreg, List.getD_eq_getElem?_getD, List.getElem?_eq_getElem insideJ',
    List.getElem?_eq_getElem insideK', Option.getD_some] at same
  exact (List.Nodup.getElem_inj_iff rsMap_nodup).mp same

/-- A register the body may write: it is neither `fp` nor `ra`, and if a callee saves it, the
prologue does. -/
structure Free (m : Fn) (r : Nat) : Prop where
  fp : r ≠ rfp
  ra : r ≠ rra
  saved : ∀ k < 24, r = sreg k → k < m.maxCalleeSave

/-- What the body of a function keeps from the state `e` it is called in. -/
structure Kept (E : Encoding T) (m : Fn) (e s : MachineState T) : Prop where
  fp : s.read rfp = e.read rsp
  savedFp : loadMem E .word s.mem (e.read rsp - fpFploc) = e.read rfp
  savedRa : m.hasCalls → loadMem E .word s.mem (e.read rsp - raFploc) = e.read rra
  ra : m.hasCalls = false → s.read rra = e.read rra
  saved : ∀ k < m.maxCalleeSave,
    loadMem E .word s.mem (e.read rsp - calleeSaveFploc k) = e.read (sreg k)
  unsaved : ∀ k < 24, m.maxCalleeSave ≤ k → s.read (sreg k) = e.read (sreg k)

section Kept

variable {E : Encoding T} {m : Fn} {e s : MachineState T}

theorem read_write_of_ne {r other : Nat} (w : Int) (differ : other ≠ r) :
    (s.write r w).read other = s.read other := by
  by_cases zero : r = rx0
  · rw [zero, MachineState.write_rx0]
  · rw [MachineState.read_write s r other w zero, if_neg differ]

/-- A register that is free may be written. -/
theorem Kept.write {r : Nat} (kept : Kept E m e s) (free : Free m r) (w : Int) :
    Kept E m e (s.write r w) where
  fp := by rw [read_write_of_ne w free.fp.symm, kept.fp]
  savedFp := by rw [MachineState.write_mem, kept.savedFp]
  savedRa calls := by rw [MachineState.write_mem, kept.savedRa calls]
  ra none := by rw [read_write_of_ne w free.ra.symm, kept.ra none]
  saved k inside := by rw [MachineState.write_mem, kept.saved k inside]
  unsaved k inside outside := by
    have differ : sreg k ≠ r := fun same =>
      absurd (free.saved k inside same.symm) (Nat.not_lt_of_ge outside)
    rw [read_write_of_ne w differ, kept.unsaved k inside outside]

/-- The words the prologue has stored are the highest ones of the frame. -/
theorem Kept.setMem {mem : Int → T} (kept : Kept E m e s)
    (same : ∀ i, e.read rsp - (3 * m.maxCalleeSave + 6) ≤ i → i < e.read rsp → mem i = s.mem i) :
    Kept E m e { s with mem } where
  fp := kept.fp
  savedFp := by
    rw [← kept.savedFp]
    refine loadMem_congr fun i from' below => same i ?_ ?_ <;> simp only [fpFploc] at * <;> omega
  savedRa calls := by
    rw [← kept.savedRa calls]
    refine loadMem_congr fun i from' below => same i ?_ ?_ <;> simp only [raFploc] at * <;> omega
  ra := kept.ra
  saved k inside := by
    rw [← kept.saved k inside]
    refine loadMem_congr fun i from' below => same i ?_ ?_ <;> simp only [calleeSaveFploc] at * <;>
      push_cast at * <;> omega
  unsaved := kept.unsaved

end Kept

/-- The register a line writes. -/
def Line.target? : Line → Option Nat
  | .ld _ dst _ _ | .mv dst _ | .addi dst _ _ | .add dst _ _ | .sub dst _ _ | .slt dst _ _
  | .slti dst _ _ | .li dst _ => some dst
  | _ => none

/-- A line of the body of a function: it writes free registers, stores where the user says or in
a slot for a call, and calls only where the prologue has saved `ra`. -/
inductive BodyLine (m : Fn) : Line → Prop where
  | label (id : Nat) : BodyLine m (.label id)
  | writes {line : Line} {dst : Nat} (target : line.target? = some dst) (free : Free m dst) :
      BodyLine m line
  | store (width : Width) (src : Nat) (offset : Int) {base : Nat} (fp : base ≠ rfp)
      (sp : base ≠ rsp) : BodyLine m (.st width src offset base)
  | save (src slot : Nat) : BodyLine m (.st .word src (-callSaveFploc m slot) rfp)
  | call (symbol : String) (calls : m.hasCalls) : BodyLine m (.call symbol)
  | jalr (target : Nat) (calls : m.hasCalls) : BodyLine m (.jalr target)
  | branch (cond : Cond) (left right id : Nat) : BodyLine m (.branch cond left right id)
  | jal (id : Nat) : BodyLine m (.jal id)

/-- The body of a function, which may be left in several places. -/
inductive Body (m : Fn) : List Line → Prop where
  | nil : Body m []
  | line {line : Line} {rest : List Line} (ofBody : BodyLine m line) (behind : Body m rest) :
      Body m (line :: rest)
  | leave {rest : List Line} (behind : Body m rest) : Body m (outputRet m ++ rest)

/-- Control does not leave a line other than to the next one. -/
def Line.straight : Line → Bool
  | .branch .. | .jal _ | .call _ | .jalr _ | .ret => false
  | _ => true

private theorem exec_straight (E : Encoding T) {line : Line} (straight : line.straight)
    (rest : List Line) (s : MachineState T) :
    exec E (line :: rest) s = exec E rest (line.effect E s) := by
  cases line <;> first | rfl | cases straight

/-- Lines that are executed one behind the other. -/
def effects (E : Encoding T) (lines : List Line) (s : MachineState T) : MachineState T :=
  lines.foldl (Line.effect E) s

/-- Straight lines run before what follows. -/
theorem exec_append (E : Encoding T) {lines : List Line} (straight : ∀ l ∈ lines, l.straight)
    (rest : List Line) (s : MachineState T) :
    exec E (lines ++ rest) s = exec E rest (effects E lines s) := by
  induction lines generalizing s with
  | nil => rfl
  | cons line others ih =>
    rw [List.forall_mem_cons] at straight
    rw [List.cons_append, exec_straight E straight.1, ih straight.2]
    rfl

/-- Up to the next transfer of control, no line stores to the addresses from `low` up to `high`,
other than relative to `fp` or `sp`, as no store of the user does. -/
def Spares (E : Encoding T) (low high : Int) : List Line → MachineState T → Prop
  | [], _ => True
  | .branch cond left right _ :: rest, s =>
    cond.holds (s.read left) (s.read right) ∨ Spares E low high rest s
  | .jal _ :: _, _ | .call _ :: _, _ | .jalr _ :: _, _ | .ret :: _, _ => True
  | .st width src offset base :: rest, s =>
    (base = rfp ∨ base = rsp ∨ s.read base + offset + width.size ≤ low ∨
      high ≤ s.read base + offset) ∧
      Spares E low high rest (Line.effect E s (.st width src offset base))
  | line :: rest, s => Spares E low high rest (line.effect E s)

/-- What follows a straight line spares the same addresses. -/
theorem Spares.straight {E : Encoding T} {low high : Int} {line : Line} {rest : List Line}
    {s : MachineState T} (spares : Spares E low high (line :: rest) s)
    (straight : line.straight) : Spares E low high rest (line.effect E s) := by
  cases line with
  | st width src offset base => exact spares.2
  | branch | jal | call | jalr | ret => cases straight
  | _ => exact spares

/-- What follows straight lines spares the same addresses. -/
theorem Spares.append {E : Encoding T} {low high : Int} {lines rest : List Line}
    {s : MachineState T} (spares : Spares E low high (lines ++ rest) s)
    (straight : ∀ l ∈ lines, l.straight) : Spares E low high rest (effects E lines s) := by
  induction lines generalizing s with
  | nil => exact spares
  | cons line others ih =>
    rw [List.forall_mem_cons] at straight
    exact ih (Spares.straight spares straight.1) straight.2

/-- A line with a target writes that register and nothing else. -/
theorem effect_of_target (E : Encoding T) {line : Line} {dst : Nat}
    (target : line.target? = some dst) (s : MachineState T) :
    line.straight ∧ ∃ w, line.effect E s = s.write dst w := by
  cases line with
  | ld | mv | addi | add | sub | slt | slti | li =>
    obtain rfl := Option.some.inj target
    exact ⟨rfl, _, rfl⟩
  | _ => cases target

/-- The registers a function gives back as it has found them. -/
def calleeSaved : List Nat := rsp :: rfp :: rra :: rsMap

/-- The state `s` gives back the registers of the state `e`. -/
def Restored (e s : MachineState T) : Prop := ∀ r ∈ calleeSaved, s.read r = e.read r

/-- Saved registers have no special purpose. -/
theorem sreg_special {k : Nat} (inside : k < 24) :
    sreg k ≠ rx0 ∧ sreg k ≠ rsp ∧ sreg k ≠ rfp ∧ sreg k ≠ rra := by
  have each : ∀ r ∈ rsMap, r ≠ rx0 ∧ r ≠ rsp ∧ r ≠ rfp ∧ r ≠ rra := by decide
  exact each _ (sreg_mem inside)

private theorem exists_sreg {r : Nat} (listed : r ∈ rsMap) : ∃ k < 24, r = sreg k := by
  obtain ⟨k, inside, rfl⟩ := List.mem_iff_getElem.mp listed
  refine ⟨k, inside, ?_⟩
  rw [sreg, List.getD_eq_getElem?_getD, List.getElem?_eq_getElem inside, Option.getD_some]

section Registers

variable {E : Encoding T} {s : MachineState T}

/-- The loads of the epilogue. -/
theorem effects_loads (count : Nat) : ∃ s', effects E
      ((List.range count).map fun i => .ld .word (sreg i) (-calleeSaveFploc i) rfp) s = s' ∧
    s'.mem = s.mem ∧ (∀ r, r ∉ rsMap → s'.read r = s.read r) ∧
      (∀ k < 24, k < count →
        s'.read (sreg k) = loadMem E .word s.mem (s.read rfp - calleeSaveFploc k)) ∧
      ∀ k < 24, count ≤ k → s'.read (sreg k) = s.read (sreg k) := by
  induction count with
  | zero => exact ⟨s, rfl, rfl, fun _ _ => rfl, by omega, fun _ _ _ => rfl⟩
  | succ count ih =>
    obtain ⟨s₁, loaded, mem, others, below, above⟩ := ih
    refine ⟨_, rfl, ?_⟩
    rw [List.range_succ, List.map_append, effects, List.foldl_append]
    rw [effects] at loaded
    rw [loaded]
    have fp : s₁.read rfp = s.read rfp := others rfp (by decide)
    simp only [List.map_cons, List.map_nil, List.foldl_cons, List.foldl_nil, Line.effect, fp, mem]
    refine ⟨by rw [MachineState.write_mem, mem], fun r unlisted => ?_, fun k inside less => ?_,
      fun k inside le => ?_⟩
    · by_cases last : count < 24
      · have differ : r ≠ sreg count := fun same => unlisted (same ▸ sreg_mem last)
        rw [read_write_of_ne _ differ, others r unlisted]
      · rw [sreg_outside (Nat.le_of_not_lt last), MachineState.write_rx0, others r unlisted]
    · by_cases same : k = count
      · subst k
        rw [MachineState.read_write _ _ _ _ (sreg_special inside).1, if_pos rfl,
          Int.sub_eq_add_neg]
      · by_cases last : count < 24
        · have differ : sreg k ≠ sreg count := fun equal => same (sreg_injective inside last equal)
          rw [read_write_of_ne _ differ, below k inside (by omega)]
        · rw [sreg_outside (Nat.le_of_not_lt last), MachineState.write_rx0,
            below k inside (by omega)]
    · have differ : sreg k ≠ sreg count := fun equal =>
        absurd (sreg_injective inside (by omega) equal) (by omega)
      rw [read_write_of_ne _ differ, above k inside (by omega)]

/-- The stores of the prologue. -/
theorem effects_stores (lawful : E.Lawful) (count : Nat) : ∃ mem, effects E
      ((List.range count).map fun i => .st .word (sreg i) (-calleeSaveFploc i) rfp) s =
        { s with mem } ∧
    (∀ i, s.read rfp - 6 ≤ i → mem i = s.mem i) ∧
      ∀ k < count, loadMem E .word mem (s.read rfp - calleeSaveFploc k) = s.read (sreg k) := by
  induction count with
  | zero => exact ⟨s.mem, rfl, fun _ _ => rfl, by omega⟩
  | succ count ih =>
    obtain ⟨mem, stored, above, saved⟩ := ih
    refine ⟨storeMem E .word mem (s.read rfp - calleeSaveFploc count) (s.read (sreg count)), ?_,
      fun i outside => ?_, fun k less => ?_⟩
    · rw [List.range_succ, List.map_append, effects, List.foldl_append]
      rw [effects] at stored
      rw [stored]
      rfl
    · rw [storeMem_of_outside (by simp only [calleeSaveFploc, Width.size]; push_cast; omega),
        above i outside]
    · by_cases same : k = count
      · subst k
        exact loadMem_storeMem_self lawful
      · rw [loadMem_storeMem_of_disjoint
          (by simp only [calleeSaveFploc, Width.size]; push_cast; omega), saved k (by omega)]

end Registers

section Frames

variable {E : Encoding T} {m : Fn} {e s : MachineState T}

/-- What the epilogue loads are the values of the caller. -/
theorem exec_leave (kept : Kept E m e s) (rest : List Line) :
    ∃ s', exec E (outputRet m ++ rest) s = (.returns, s') ∧ Restored e s' := by
  obtain ⟨s₁, loaded, mem, others, below, above⟩ := effects_loads (E := E) (s := s) m.maxCalleeSave
  have fp : s₁.read rfp = e.read rsp := by rw [others rfp (by decide), kept.fp]
  have sregs : ∀ k < 24, s₁.read (sreg k) = e.read (sreg k) := by
    intro k inside
    by_cases counted : k < m.maxCalleeSave
    · rw [below k inside counted, kept.fp, kept.saved k counted]
    · rw [above k inside (Nat.le_of_not_lt counted),
        kept.unsaved k inside (Nat.le_of_not_lt counted)]
  -- Behind the loads `ra` is what it was, or loaded, and `sp` and `fp` are set.
  have leave {s₂ : MachineState T} (mem₂ : s₂.mem = s.mem) (ra : s₂.read rra = e.read rra)
      (same : ∀ r, r ≠ rra → s₂.read r = s₁.read r) :
      Restored e (effects E [.mv rsp rfp, .ld .word rfp (-fpFploc) rfp] s₂) := by
    have sp : s₂.read rfp = e.read rsp := by rw [same rfp (by decide), fp]
    have restored : effects E [.mv rsp rfp, .ld .word rfp (-fpFploc) rfp] s₂ =
        (s₂.write rsp (s₂.read rfp)).write rfp
          (loadMem E .word s.mem (e.read rsp - fpFploc)) := by
      simp only [effects, List.foldl_cons, List.foldl_nil, Line.effect]
      rw [MachineState.write_mem, mem₂, read_write_of_ne _ (by decide), sp, Int.sub_eq_add_neg]
    rw [restored]
    intro r listed
    rcases List.mem_cons.mp listed with rfl | listed
    · rw [read_write_of_ne _ (by decide), MachineState.read_write _ _ _ _ (by decide), if_pos rfl,
        sp]
    rcases List.mem_cons.mp listed with rfl | listed
    · rw [MachineState.read_write _ _ _ _ (by decide), if_pos rfl, kept.savedFp]
    rcases List.mem_cons.mp listed with rfl | listed
    · rw [read_write_of_ne _ (by decide), read_write_of_ne _ (by decide), ra]
    · obtain ⟨k, inside, rfl⟩ := exists_sreg listed
      obtain ⟨-, notSp, notFp, notRa⟩ := sreg_special inside
      rw [read_write_of_ne _ notFp, read_write_of_ne _ notSp, same _ notRa, sregs k inside]
  have split : outputRet m ++ rest =
      ((List.range m.maxCalleeSave).map fun i => .ld .word (sreg i) (-calleeSaveFploc i) rfp) ++
        ((if m.hasCalls then [.ld .word rra (-raFploc) rfp] else []) ++
          ([.mv rsp rfp, .ld .word rfp (-fpFploc) rfp] ++ .ret :: rest)) := by
    simp [outputRet, restoreState]
  rw [split, exec_append E (by simp [Line.straight]), loaded]
  cases calls : m.hasCalls with
  | false =>
    have ra : s₁.read rra = e.read rra := by rw [others rra (by decide), kept.ra calls]
    exact ⟨_, rfl, leave mem ra fun _ _ => rfl⟩
  | true =>
    have ra : (s₁.write rra (loadMem E .word s₁.mem (s₁.read rfp + -raFploc))).read rra =
        e.read rra := by
      rw [MachineState.read_write _ _ _ _ (by decide), if_pos rfl, mem, fp,
        ← Int.sub_eq_add_neg, kept.savedRa calls]
    have mem' : (s₁.write rra (loadMem E .word s₁.mem (s₁.read rfp + -raFploc))).mem = s.mem := by
      rw [MachineState.write_mem, mem]
    exact ⟨_, rfl, leave mem' ra fun r other => read_write_of_ne _ other⟩

/-- The stores of the callee-saved registers go to words of their own. -/
theorem kept_stores (lawful : E.Lawful) (fp : s.read rfp = e.read rsp)
    (others : ∀ r, r ≠ rfp → r ≠ rsp → s.read r = e.read r)
    (savedFp : loadMem E .word s.mem (e.read rsp - fpFploc) = e.read rfp)
    (savedRa : m.hasCalls → loadMem E .word s.mem (e.read rsp - raFploc) = e.read rra) :
    Kept E m e (effects E ((List.range m.maxCalleeSave).map fun i =>
      .st .word (sreg i) (-calleeSaveFploc i) rfp) s) := by
  obtain ⟨mem, stored, above, saved⟩ := effects_stores lawful (s := s) m.maxCalleeSave
  rw [fp] at above saved
  rw [stored]
  exact {
    fp := fp
    savedFp := by
      rw [← savedFp]
      exact loadMem_congr fun i from' _ => above i (by simp only [fpFploc] at from'; omega)
    savedRa := fun calls => by
      rw [← savedRa calls]
      exact loadMem_congr fun i from' _ => above i (by simp only [raFploc] at from'; omega)
    ra := fun _ => others rra (by decide) (by decide)
    saved := fun k inside => by
      rw [saved k inside]
      by_cases real : k < 24
      · exact others _ (sreg_special real).2.2.1 (sreg_special real).2.1
      · rw [sreg_outside (Nat.le_of_not_lt real)]
        rfl
    unsaved := fun k inside _ => others _ (sreg_special inside).2.2.1 (sreg_special inside).2.1 }

/-- Behind the prologue, the values of the caller are stored. -/
theorem prologue_kept (lawful : E.Lawful) (m : Fn) (e : MachineState T) :
    Kept E m e (effects E (saveState m) e) := by
  have fpStored : loadMem E .word (storeMem E .word e.mem (e.read rsp + -fpFploc) (e.read rfp))
      (e.read rsp - fpFploc) = e.read rfp := loadMem_storeMem_self lawful
  -- `fp` is set, `ra` may be stored, and `sp` is moved before the registers are stored.
  have start : ∃ mem w, effects E (saveState m) e =
      effects E ((List.range m.maxCalleeSave).map fun i =>
        .st .word (sreg i) (-calleeSaveFploc i) rfp)
          ({ e.write rfp (e.read rsp) with mem }.write rsp w) ∧
      loadMem E .word mem (e.read rsp - fpFploc) = e.read rfp ∧
        (m.hasCalls → loadMem E .word mem (e.read rsp - raFploc) = e.read rra) := by
    rw [saveState, effects, List.foldl_append]
    cases calls : m.hasCalls with
    | false => exact ⟨_, _, rfl, fpStored, by simp⟩
    | true =>
      refine ⟨storeMem E .word (storeMem E .word e.mem (e.read rsp + -fpFploc) (e.read rfp))
        (e.read rsp + -raFploc) (e.read rra), _, rfl, ?_, fun _ => loadMem_storeMem_self lawful⟩
      rw [loadMem_storeMem_of_disjoint
        (Or.inr (by simp only [raFploc, fpFploc, Width.size]; omega)), fpStored]
  obtain ⟨mem, w, state, savedFp, savedRa⟩ := start
  rw [state]
  refine kept_stores lawful ?_ (fun r notFp notSp => ?_) ?_ fun calls => ?_
  · rw [read_write_of_ne _ (by decide)]
    rfl
  · rw [read_write_of_ne _ notSp]
    exact read_write_of_ne _ notFp
  · rw [MachineState.write_mem, savedFp]
  · rw [MachineState.write_mem, savedRa calls]

/-- The stack pointer is moved below the frame. -/
theorem prologue_sp (E : Encoding T) (m : Fn) (e : MachineState T) :
    (effects E (saveState m) e).read rsp = e.read rsp - frameSize m := by
  have stores (count : Nat) (s : MachineState T) : (effects E ((List.range count).map fun i =>
      .st .word (sreg i) (-calleeSaveFploc i) rfp) s).read rsp = s.read rsp := by
    induction count with
    | zero => rfl
    | succ count ih =>
      rw [List.range_succ, List.map_append, effects, List.foldl_append]
      exact ih
  have size : (Numeral.negated (frameSize m)).value.getD 0 = -(frameSize m : Int) := by
    rw [Numeral.value, if_pos (by omega), Option.getD_some]
  rw [saveState, effects, List.foldl_append]
  refine (stores _ _).trans ?_
  -- The line before the stores is the one that moves `sp`.
  cases calls : m.hasCalls with
  | false =>
    refine (MachineState.read_write _ rsp rsp _ (by decide)).trans ?_
    rw [if_pos rfl, size, Int.sub_eq_add_neg]
    rfl
  | true =>
    refine (MachineState.read_write _ rsp rsp _ (by decide)).trans ?_
    rw [if_pos rfl, size, Int.sub_eq_add_neg]
    rfl

end Frames

/-- How a called function comes back: with the callee-saved registers and the addresses from
`low` up to `high` as it has found them. It may change everything else, `ra` included. -/
structure ComesBack (low high : Int) (s s' : MachineState T) : Prop where
  regs : ∀ r ∈ rsp :: rfp :: rsMap, s'.read r = s.read r
  frame : ∀ i, low ≤ i → i < high → s'.mem i = s.mem i

/-- The lines from a label on. -/
def linesAt (text : List Line) (id : Nat) : List Line := text.dropWhile (· ≠ .label id)

/-- A path of the code `text` from some lines in the state `s` to a `ret ra` in the state `s'`.
On its way no store of the user goes to the addresses from `low` up to `high`, and every function
that is called comes back. -/
inductive Returns (E : Encoding T) (text : List Line) (low high : Int) :
    List Line → MachineState T → MachineState T → Prop where
  | here {lines : List Line} {s s' : MachineState T} (spares : Spares E low high lines s)
      (executes : exec E lines s = (.returns, s')) : Returns E text low high lines s s'
  | jump {lines : List Line} {s mid s' : MachineState T} {id : Nat}
      (spares : Spares E low high lines s) (executes : exec E lines s = (.jumps id, mid))
      (behind : Returns E text low high (linesAt text id) mid s') :
      Returns E text low high lines s s'
  | call {lines rest : List Line} {s mid back s' : MachineState T}
      (spares : Spares E low high lines s) (executes : exec E lines s = (.calls rest, mid))
      (comesBack : ComesBack low high mid back) (behind : Returns E text low high rest back s') :
      Returns E text low high lines s s'

/-- Where control has gone from the body of a function, with what it has kept. -/
def ExitKeeps (E : Encoding T) (m : Fn) (e : MachineState T) : Exit × MachineState T → Prop
  | (.falls, s) | (.jumps _, s) => Kept E m e s
  | (.calls rest, s) => m.hasCalls ∧ Body m rest ∧ Kept E m e s
  | (.returns, s) => Restored e s

section Paths

variable {E : Encoding T} {m : Fn} {e s : MachineState T} {low high : Int}

/-- What a function that is called keeps is enough. -/
theorem Kept.comesBack {s' : MachineState T} (kept : Kept E m e s) (calls : m.hasCalls)
    (back : ComesBack (e.read rsp - frameSize m) (e.read rsp) s s') : Kept E m e s' := by
  have mem : Kept E m e { s with mem := s'.mem } := kept.setMem fun i above below =>
    back.frame i (by simp only [frameSize]; push_cast; omega) below
  exact {
    fp := by rw [back.regs rfp (by simp), kept.fp]
    savedFp := mem.savedFp
    savedRa := mem.savedRa
    ra := fun none => by rw [calls] at none; cases none
    saved := mem.saved
    unsaved := fun k inside outside => by
      rw [back.regs _ (List.mem_cons_of_mem _ (List.mem_cons_of_mem _ (sreg_mem inside))),
        kept.unsaved k inside outside] }

/-- A line of the body keeps what the prologue has stored. -/
theorem Kept.step {line : Line} {rest : List Line} (kept : Kept E m e s)
    (ofBody : BodyLine m line) (straight : line.straight)
    (spares : Spares E (e.read rsp - frameSize m) (e.read rsp) (line :: rest) s) :
    Kept E m e (line.effect E s) := by
  cases ofBody with
  | label id => exact kept
  | writes target free =>
    obtain ⟨-, w, effect⟩ := effect_of_target E target s
    rw [effect]
    exact kept.write free w
  | store width src offset fp sp =>
    refine kept.setMem fun i above below => ?_
    rcases spares.1 with bad | bad | lower | higher
    · exact absurd bad fp
    · exact absurd bad sp
    · refine storeMem_of_outside (Or.inr ?_)
      simp only [frameSize] at lower
      push_cast at lower
      omega
    · exact storeMem_of_outside (Or.inl (by omega))
  | save src slot =>
    refine kept.setMem fun i above below => storeMem_of_outside (Or.inr ?_)
    rw [kept.fp]
    simp only [callSaveFploc, Width.size]
    push_cast
    omega
  | call | jalr | branch | jal => cases straight

/-- What the body of a function does up to the next transfer of control. -/
theorem exec_body {lines : List Line} (body : Body m lines) (kept : Kept E m e s)
    (spares : Spares E (e.read rsp - frameSize m) (e.read rsp) lines s) :
    ExitKeeps E m e (exec E lines s) := by
  induction body generalizing s with
  | nil => exact kept
  | @line line rest ofBody behind ih =>
    cases straight : line.straight with
    | true =>
      rw [exec_straight E straight]
      exact ih (kept.step ofBody straight spares) (Spares.straight spares straight)
    | false =>
      cases ofBody with
      | call symbol calls => exact ⟨calls, behind, kept⟩
      | jalr target calls => exact ⟨calls, behind, kept⟩
      | jal id => exact kept
      | branch cond left right id =>
        rw [exec]
        split
        · exact kept
        · exact ih kept (spares.resolve_left ‹_›)
      | writes target free =>
        rw [(effect_of_target E target s).1] at straight
        cases straight
      | label | store | save => cases straight
  | @leave rest behind ih =>
    obtain ⟨s', executes, restored⟩ := exec_leave kept rest
    rw [executes]
    exact restored

/-- A function starts with lines that are no labels. -/
theorem linesAt_append {front : List Line} (plain : ∀ l ∈ front, ∀ id, l ≠ .label id)
    (behind : List Line) (id : Nat) : linesAt (front ++ behind) id = linesAt behind id :=
  List.dropWhile_append_of_pos fun l member => by simpa using plain l member id

/-- What stands behind a label of the body is a part of it. -/
theorem Body.linesAt {lines : List Line} (body : Body m lines) (id : Nat) :
    Body m (linesAt lines id) := by
  induction body with
  | nil => exact .nil
  | @line line rest ofBody behind ih =>
    rw [Asm.linesAt, List.dropWhile_cons]
    split
    · exact ih
    · exact .line ofBody behind
  | @leave rest behind ih =>
    rw [linesAt_append]
    · exact ih
    · intro l member id
      rintro rfl
      simp [outputRet, restoreState] at member

/-- On every path from the body to a `ret ra`, the registers are given back. -/
theorem Returns.restored {text lines : List Line} {s' : MachineState T}
    (labels : ∀ id, Body m (Asm.linesAt text id))
    (returns : Returns E text (e.read rsp - frameSize m) (e.read rsp) lines s s')
    (body : Body m lines) (kept : Kept E m e s) : Restored e s' := by
  induction returns with
  | here spares executes =>
    have exits := exec_body body kept spares
    rw [executes] at exits
    exact exits
  | @jump _ _ _ _ id spares executes _ ih =>
    have exits := exec_body body kept spares
    rw [executes] at exits
    exact ih (labels id) exits
  | call spares executes comesBack _ ih =>
    have exits := exec_body body kept spares
    rw [executes] at exits
    exact ih exits.2.1 (exits.2.2.comesBack exits.1 comesBack)

/-- A path goes through straight lines first. -/
theorem Returns.append {text front lines : List Line} {s' : MachineState T}
    (straight : ∀ l ∈ front, l.straight)
    (returns : Returns E text low high (front ++ lines) s s') :
    Returns E text low high lines (effects E front s) s' := by
  cases returns with
  | here spares executes =>
    rw [exec_append E straight] at executes
    exact .here (spares.append straight) executes
  | jump spares executes behind =>
    rw [exec_append E straight] at executes
    exact .jump (spares.append straight) executes behind
  | call spares executes comesBack behind =>
    rw [exec_append E straight] at executes
    exact .call (spares.append straight) executes comesBack behind

/-- The prologue neither calls nor branches. -/
theorem saveState_straight (m : Fn) {l : Line} (member : l ∈ saveState m) : l.straight := by
  simp only [saveState, List.mem_append, List.mem_map] at member
  rcases member with ((start | ra) | sp) | ⟨k, -, rfl⟩
  · simp only [List.mem_cons, List.not_mem_nil, or_false] at start
    rcases start with rfl | rfl <;> rfl
  · split at ra
    · rw [List.mem_singleton.mp ra]
      rfl
    · cases ra
  · rw [List.mem_singleton.mp sp]
    rfl
  · rfl

/-- On every path from the label of a function to a `ret ra`, the registers are given back. -/
theorem Returns.restored_function {name : String} {body : List Line} {s' : MachineState T}
    (lawful : E.Lawful) (ofBody : Body m body)
    (returns : Returns E (.function name :: saveState m ++ body) (e.read rsp - frameSize m)
      (e.read rsp) (.function name :: saveState m ++ body) e s') : Restored e s' := by
  have straight : ∀ l ∈ Line.function name :: saveState m, l.straight :=
    List.forall_mem_cons.mpr ⟨rfl, fun l member => saveState_straight m member⟩
  have plain : ∀ l ∈ Line.function name :: saveState m, ∀ id, l ≠ .label id := by
    refine List.forall_mem_cons.mpr ⟨by simp, fun l member id => ?_⟩
    rintro rfl
    simp [saveState] at member
  refine Returns.restored (fun id => ?_) (returns.append straight) ofBody (prologue_kept lawful m e)
  rw [linesAt_append plain]
  exact ofBody.linesAt id

end Paths

end Qbt.Asm
