import Mathlib.Data.List.GetD
import PgFort.BufferCalls
import PgFort.Loops
import PgFort.PrintInfo

namespace PgFort.StartupScan

open PgFort.Framing
open PgFort.Conn
open PgFort.Reads
open PgFort.StateMachine
open PgFort.Runs
open PgFort.Loops
open PgFort.Batches
open PgFort.Receipts
open PgFort.PrintInfo

section Scan

variable (bytes : Bytes)

/-- Where the next name begins, behind a name and its value. -/
def nextName (pos : Nat) : Nat :=
  behind bytes (behind bytes pos)

/-- The loop of `Initiate` ends at this position. -/
def NamesEnd (pos : Nat) : Prop :=
  bytes.getD pos 0 = 0

/-- The scan for names comes to a position for the second time. -/
def ComesBack : Prop :=
  Returns (nextName bytes) (NamesEnd bytes) 8

end Scan

/-- What `recv` returns to one call of `RecvFrom`. -/
structure Series where
  chunks : List Bytes
  stop : RecvEnd
  deriving DecidableEq, Repr

def recvFrom (b : Buffer) (r : Series) : Buffer :=
  (b.recvFrom r.chunks r.stop).1

/-- `recv` returns no more than it has been offered room for. -/
def Offered (rs : List Series) : Prop :=
  AtEachStep recvFrom .new (fun b r => Fits b.restore r.chunks) rs

/-- All that has been received. -/
def content (rs : List Series) : Bytes :=
  rs.flatMap fun r => r.chunks.flatten

/-- Zeros stand behind the data, and neither `Initiate` nor a plug-in reads further. -/
structure Safe (b : Buffer) : Prop where
  slack : b.dataSize + 1024 ≤ b.buf.length
  zeros : ∀ byte ∈ b.buf.drop b.dataSize, byte = 0
  ends : ¬b.size ≤ 8 → ∃ n parameters, parameterLoop b.buf n 8 = some parameters
  inside : ¬b.size ≤ 8 → ∀ n, ∀ i ∈ List.range 8 ++ loopReads b.buf n 8, i < b.buf.length
  text : ∀ i ∈ textReads b.buf 5, i < b.buf.length
  /-- The second plug-in reads what the first has written. -/
  rewritten : ∀ q, ∀ i ∈ textReads (setQuery q).buf 5, i < (setQuery q).buf.length

section Slack

variable {bytes : Bytes} {k pos : Nat}

theorem cString_drop_slack (bytes : Bytes) (k pos : Nat) :
    cString ((bytes ++ List.replicate k 0).drop pos) = cString (bytes.drop pos) := by
  have hzeros (n : Nat) : (List.replicate n (0 : UInt8)).takeWhile (· != 0) = [] := by
    cases n with
    | zero => rfl
    | succ n => rfl
  rw [List.drop_append, List.drop_replicate, cString, List.takeWhile_append]
  split
  · rename_i hall
    rw [hzeros, List.append_nil, cString, List.takeWhile_eq_self_iff.mpr]
    exact List.takeWhile_eq_self_iff.mp ((List.takeWhile_prefix _).eq_of_length hall)
  · rfl

theorem strlen_slack (bytes : Bytes) (k pos : Nat) :
    strlen (bytes ++ List.replicate k 0) pos = strlen bytes pos := by
  rw [strlen, cString_drop_slack, strlen]

theorem behind_slack (bytes : Bytes) (k : Nat) :
    behind (bytes ++ List.replicate k 0) = behind bytes := by
  funext pos
  rw [behind, strlen_slack, behind]

theorem getD_slack (bytes : Bytes) (k pos : Nat) :
    (bytes ++ List.replicate k 0).getD pos 0 = bytes.getD pos 0 := by
  by_cases hpos : pos < bytes.length
  · exact List.getD_append _ _ _ _ hpos
  · rw [List.getD_append_right _ _ _ _ (not_lt.mp hpos), List.getD_eq_getElem?_getD,
      List.getElem?_getD_replicate_default_eq, List.getD_eq_default _ _ (not_lt.mp hpos)]

theorem parameterLoop_slack (bytes : Bytes) (k n pos : Nat) :
    parameterLoop (bytes ++ List.replicate k 0) n pos = parameterLoop bytes n pos := by
  induction n generalizing pos with
  | zero => rfl
  | succ n ih =>
      rw [parameterLoop, parameterLoop, getD_slack, behind_slack, cString_drop_slack,
        cString_drop_slack, ih]

theorem loopReads_slack (bytes : Bytes) (k n pos : Nat) :
    loopReads (bytes ++ List.replicate k 0) n pos = loopReads bytes n pos := by
  induction n generalizing pos with
  | zero => rfl
  | succ n ih =>
      rw [loopReads, loopReads, getD_slack, behind_slack, textReads, textReads, strlen_slack,
        strlen_slack, ih, textReads, textReads]

theorem add_strlen_le (bytes : Bytes) (pos : Nat) :
    pos + strlen bytes pos ≤ max bytes.length pos := by
  have hle := (List.takeWhile_sublist (l := bytes.drop pos) (· != 0)).length_le
  rw [List.length_drop] at hle
  rw [strlen, cString]
  omega

theorem lt_length_of_getD_ne_zero (h : bytes.getD pos 0 ≠ 0) : pos < bytes.length := by
  by_contra hge
  exact h (List.getD_eq_default _ _ (not_lt.mp hge))

theorem behind_le (bytes : Bytes) (pos : Nat) : behind bytes pos ≤ max bytes.length pos + 1 := by
  have hend := add_strlen_le bytes pos
  rw [behind, wrap]
  exact (Nat.mod_le _ _).trans (by omega)

theorem behind_lt (bytes : Bytes) (pos : Nat) : behind bytes pos < rounds :=
  Nat.mod_lt _ (by decide)

theorem nextName_le (h : pos < bytes.length) : nextName bytes pos ≤ bytes.length + 2 := by
  have hname := behind_le bytes pos
  have hvalue := behind_le bytes (behind bytes pos)
  rw [nextName]
  omega

theorem loopReads_inside {n : Nat} (hpos : pos ≤ bytes.length + 2) :
    ∀ i ∈ loopReads bytes n pos, i ≤ bytes.length + 2 := by
  induction n generalizing pos with
  | zero => exact fun i hi => absurd hi List.not_mem_nil
  | succ n ih =>
      rw [loopReads, List.forall_mem_cons]
      refine ⟨hpos, ?_⟩
      split
      · exact fun i hi => absurd hi List.not_mem_nil
      · rename_i hbyte
        have hlt := lt_length_of_getD_ne_zero hbyte
        have hname := add_strlen_le bytes pos
        have hfirst := behind_le bytes pos
        have hvalue := add_strlen_le bytes (behind bytes pos)
        simp only [List.forall_mem_append]
        refine ⟨⟨?_, ?_⟩, ih (nextName_le hlt)⟩
        · intro i hi
          have hmem := List.mem_range'_1.mp hi
          omega
        · intro i hi
          have hmem := List.mem_range'_1.mp hi
          omega

end Slack

section Ends

variable {bytes : Bytes} {n pos : Nat}

theorem exists_parameterLoop_iff :
    (∃ parameters, parameterLoop bytes n pos = some parameters) ↔
      ∃ k < n, NamesEnd bytes ((nextName bytes)^[k] pos) := by
  induction n generalizing pos with
  | zero => simp [parameterLoop]
  | succ n ih =>
      rw [parameterLoop]
      split
      · rename_i hbyte
        exact iff_of_true ⟨[], rfl⟩ ⟨0, Nat.succ_pos n, hbyte⟩
      · rename_i hbyte
        simp only [Option.map_eq_some_iff]
        constructor
        · rintro ⟨_, parameters, hrest, -⟩
          obtain ⟨k, hk, hend⟩ := ih.mp ⟨parameters, hrest⟩
          exact ⟨k + 1, Nat.succ_lt_succ hk, hend⟩
        · rintro ⟨k, hk, hend⟩
          cases k with
          | zero => exact absurd hend hbyte
          | succ k =>
              obtain ⟨parameters, hrest⟩ := ih.mpr ⟨k, Nat.lt_of_succ_lt_succ hk, hend⟩
              exact ⟨_, parameters, hrest, rfl⟩

theorem iterate_nextName_mem (bytes : Bytes) (k : Nat) :
    (nextName bytes)^[k] 8 ∈ Finset.range rounds :=
  iterate_mem_range (by decide) (fun _ => behind_lt bytes _) k

theorem loop_ends_iff :
    (∃ n parameters, parameterLoop bytes n 8 = some parameters) ↔ ¬ComesBack bytes := by
  simp only [exists_parameterLoop_iff]
  rw [ComesBack, ← stops_iff_not_returns (iterate_nextName_mem bytes)]
  constructor
  · rintro ⟨n, k, -, hend⟩
    exact ⟨k, hend⟩
  · rintro ⟨k, hend⟩
    exact ⟨k + 1, k, Nat.lt_succ_self k, hend⟩

/-- As many rounds as there are positions are enough for a loop that ends. -/
theorem exists_startupParameters_iff :
    (∃ parameters, startupParameters bytes = .ok parameters) ↔ ¬ComesBack bytes := by
  have hloop : (∃ parameters, startupParameters bytes = .ok parameters) ↔
      ∃ parameters, parameterLoop bytes rounds 8 = some parameters := by
    rw [startupParameters]
    split <;> simp_all
  rw [hloop, exists_parameterLoop_iff]
  constructor
  · rintro ⟨k, -, hend⟩ hreturns
    exact not_stops_of_returns hreturns ⟨k, hend⟩
  · intro h
    have hstops := exists_lt_card_of_not_returns (iterate_nextName_mem bytes) h
    rwa [Finset.card_range] at hstops

theorem not_comesBack_of_length (h : bytes.length + 2 < 4294967296) : ¬ComesBack bytes := by
  refine not_returns_of_lt fun n hgoes => ?_
  rw [Function.iterate_succ_apply']
  have hlt := lt_length_of_getD_ne_zero hgoes
  have hname := add_strlen_le bytes ((nextName bytes)^[n] 8)
  have hvalue := add_strlen_le bytes (behind bytes ((nextName bytes)^[n] 8))
  rw [nextName, behind, behind, wrap, wrap] at *
  omega

end Ends

section Wrapping

variable {rest : Bytes} {k : Nat}

theorem strlen_replicate (h : rest.head? = some 0) :
    strlen (List.replicate (k + 8) 1 ++ rest) 8 = k := by
  obtain ⟨tail, rfl⟩ := List.head?_eq_some_iff.mp h
  rw [strlen, List.drop_append_of_le_length (by rw [List.length_replicate]; omega),
    List.drop_replicate, Nat.add_sub_cancel, cString_append_zero, List.length_replicate]
  intro byte hbyte
  rw [List.eq_of_mem_replicate hbyte]
  decide

/-- A name that is as long as an `uint32_t` goes leads back to where it begins. -/
theorem parameterLoop_eq_none (h : rest.head? = some 0) (hk : k + 1 = 4294967296) (n : Nat) :
    parameterLoop (List.replicate (k + 8) 1 ++ rest) n 8 = none := by
  have hbehind : behind (List.replicate (k + 8) 1 ++ rest) 8 = 8 := by
    rw [behind, strlen_replicate h, wrap]
    omega
  have hbyte : (List.replicate (k + 8) 1 ++ rest).getD 8 0 = (1 : UInt8) := by
    rw [List.getD_append _ _ _ _ (by rw [List.length_replicate]; omega), List.getD_replicate]
    omega
  induction n with
  | zero => rfl
  | succ n ih =>
      rw [parameterLoop, if_neg (by rw [hbyte]; decide), hbehind, hbehind, ih]
      rfl

end Wrapping

section Series

variable {rs : List Series} {bytes : Bytes}

theorem foldl_recvFrom (h : Offered rs) : rs.foldl recvFrom .new = received (content rs) := by
  induction rs using List.reverseRecOn with
  | nil => exact received_nil.symm
  | append_singleton rs r ih =>
      obtain ⟨hpre, hfits⟩ := atEachStep_concat.mp h
      rw [ih hpre] at hfits
      have hcontent : content (rs ++ [r]) = content rs ++ r.chunks.flatten := by
        simp only [content, List.flatMap_append, List.flatMap_singleton]
      rw [List.foldl_append, ih hpre, hcontent]
      exact (recvFrom_received r.stop hfits).1

theorem fits_singletons {b : Buffer} (hb : 0 < b.bufSize) (bytes : Bytes) :
    Fits b (bytes.map fun byte => [byte]) := by
  induction bytes generalizing b with
  | nil => exact trivial
  | cons byte bytes ih =>
      exact ⟨hb, ih (@BufferCalls.bufSize_foldl_receive_pos b [[byte]] hb)⟩

/-- The bytes come in one by one. -/
def oneByOne (bytes : Bytes) : List Series :=
  [⟨bytes.map fun byte => [byte], .wouldBlock⟩]

theorem offered_oneByOne (bytes : Bytes) : Offered (oneByOne bytes) := by
  refine (@atEachStep_concat _ _ recvFrom .new _ [] _).mpr ⟨atEachStep_nil, ?_⟩
  exact fits_singletons (by decide) bytes

theorem content_oneByOne (bytes : Bytes) : content (oneByOne bytes) = bytes := by
  rw [content, oneByOne, List.flatMap_singleton]
  induction bytes with
  | nil => rfl
  | cons byte bytes ih => rw [List.map_cons, List.flatten_cons, ih, List.singleton_append]

theorem safe_received_iff (bytes : Bytes) :
    Safe (received bytes) ↔ asInt bytes.length ≤ 8 ∨ ¬ComesBack bytes := by
  have hcapacity := le_capacity bytes.length
  have hleast := defaultSize_le_capacity bytes.length
  have hroom := length_buf_received bytes
  rw [defaultSize] at hleast
  have hends : (∃ n parameters, parameterLoop (received bytes).buf n 8 = some parameters) ↔
      ¬ComesBack bytes := by
    simp only [received, parameterLoop_slack]
    exact loop_ends_iff
  have hlast : (received bytes).buf.getLast? = some 0 := by
    rw [received, List.getLast?_append, List.getLast?_replicate, if_neg (by omega)]
    rfl
  constructor
  · intro h
    exact or_iff_not_imp_left.mpr fun hsize => hends.mp (h.ends hsize)
  · intro h
    constructor
    · show bytes.length + 1024 ≤ _
      omega
    · intro byte hbyte
      rw [received, List.drop_left] at hbyte
      exact List.eq_of_mem_replicate hbyte
    · exact fun hsize => hends.mpr (h.resolve_left hsize)
    · intro hsize n i hi
      have hlong : 8 < (bytes.length : Int) := (not_le.mp hsize).trans_le (asInt_le _)
      rcases List.mem_append.mp hi with hheader | hread
      · have hmem := List.mem_range.mp hheader
        omega
      · rw [received, loopReads_slack] at hread
        have hle := loopReads_inside (by omega) i hread
        omega
    · exact (textReads_inside hlast 5).mpr (by omega)
    · intro q
      have hend : (setQuery q).buf.getLast? = some 0 :=
        List.getLast?_eq_some_iff.mpr
          ⟨81 :: (bigEndian ((cString q).length + 5) ++ cString q), rfl⟩
      refine (textReads_inside hend 5).mpr ?_
      show 5 < (81 :: (bigEndian ((cString q).length + 5) ++ cString q ++ [0])).length
      simp only [bigEndian, List.length_cons, List.length_append, List.length_nil]
      omega

end Series

/-- A message so long that its size is positive again as an `int`: the name of its only parameter
takes up all positions. -/
def wrapping : Bytes :=
  List.replicate (4294967295 + 8) 1 ++ List.replicate 2 0

theorem length_wrapping : wrapping.length = 4294967305 := by
  rw [wrapping, List.length_append, List.length_replicate, List.length_replicate]

end PgFort.StartupScan
