import Mathlib.Data.List.Nodup

/-!
# Registers

The register numbers of `include/qbt/abi.h` and the tables the passes look them up in.
-/

namespace Qbt

/-- `RX0`, which reads as zero. -/
def rx0 : Nat := 0

/-- `RSP`. -/
def rsp : Nat := 1

/-- `RFP`. -/
def rfp : Nat := 2

/-- `RGP`. -/
def rgp : Nat := 3

/-- `RTP`. -/
def rtp : Nat := 25

/-- `RRA`. -/
def rra : Nat := 26

/-- `RTMP0`, which the moves between blocks use. -/
def rtmp0 : Nat := 44

/-- `RTMP1`. -/
def rtmp1 : Nat := 62

/-- `RTMP2`. -/
def rtmp2 : Nat := 80

/-- The registers with a meaning of their own. -/
def specialRegs : List Nat := [rx0, rsp, rfp, rgp, rtp, rra, rtmp0, rtmp1, rtmp2]

/-- `ar_map`: the argument registers `RA0` to `RA23`. -/
def arMap : List Nat :=
  [4, 5, 6, 7, 8, 9, 10,
    27, 28, 29, 30, 31, 32, 33, 34, 35, 36, 37, 38, 39, 40, 41, 42, 43]

/-- The temporary registers `RT0` to `RT23`. -/
def rtMap : List Nat :=
  [11, 12, 13, 14, 15, 16, 17,
    45, 46, 47, 48, 49, 50, 51, 52, 53, 54, 55, 56, 57, 58, 59, 60, 61]

/-- The callee-saved registers `RS0` to `RS23`. -/
def rsMap : List Nat :=
  [18, 19, 20, 21, 22, 23, 24,
    63, 64, 65, 66, 67, 68, 69, 70, 71, 72, 73, 74, 75, 76, 77, 78, 79]

/-- `tr_map`: the registers `find_free_reg` hands out, in order of preference. -/
def trMap : List Nat := rtMap ++ rsMap ++ arMap

theorem arMap_length : arMap.length = 24 := rfl

theorem arMap_nodup : arMap.Nodup := by decide

/-- No register that is handed out has a meaning of its own. -/
theorem notMem_specialRegs {r : Nat} (listed : r ∈ trMap) : r ∉ specialRegs := by
  have disjoint : ∀ r ∈ specialRegs, r ∉ trMap := by decide
  exact fun special => disjoint r special listed

/-- The `k`-th argument register. -/
def ra (k : Nat) : Nat := arMap.getD k rx0

/-- The table of argument registers lists them by slot. -/
theorem getElem?_arMap {k : Nat} (inside : k < 24) : arMap[k]? = some (ra k) := by
  have inside' : k < arMap.length := by rwa [arMap_length]
  simp [ra, inside']

/-- Different slots have different registers. -/
theorem ra_injective {j k : Nat} (insideJ : j < 24) (insideK : k < 24) (same : ra j = ra k) :
    j = k := by
  have insideJ' : j < arMap.length := by rwa [arMap_length]
  have both : arMap[j]? = arMap[k]? := by
    rw [getElem?_arMap insideJ, getElem?_arMap insideK, same]
  exact (List.getElem?_inj insideJ' arMap_nodup).mp both

end Qbt
