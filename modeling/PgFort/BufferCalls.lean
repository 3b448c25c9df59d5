import PgFort.Receipts

namespace PgFort.BufferCalls

open PgFort.Framing
open PgFort.Conn
open PgFort.Plugins
open PgFort.Runs
open PgFort.Batches
open PgFort.Receipts

inductive Call where
  | recvFrom (chunks : List Bytes) (stop : RecvEnd)
  | setQuery (q : Bytes)
  | setError (e : Conn.Error)
  deriving DecidableEq, Repr

/-- One of the three functions that write a buffer. -/
def call (b : Buffer) : Call → Except Fault Buffer
  | .recvFrom chunks stop => .ok (b.recvFrom chunks stop).1
  | .setQuery q => .ok (setQuery q)
  | .setError e =>
      match setError e with
      | some b => .ok b
      | none => .error .aborted

/-- `recv` returns no more than it has been offered room for. -/
def Offered (b : Buffer) : Call → Prop
  | .recvFrom chunks _ => Fits b.restore chunks
  | .setQuery _ => True
  | .setError _ => True

/-- The room that is offered to `recv` lies in the vector. -/
def WindowInside (b : Buffer) : Prop :=
  b.dataSize + b.bufSize ≤ b.buf.length

/-- It does at every `recv` of a series, the one that returns nothing among them. -/
def WindowsInside : Buffer → List Bytes → Prop
  | b, [] => WindowInside b
  | b, chunk :: chunks => WindowInside b ∧ WindowsInside (b.receive chunk) chunks

/-- A `RecvFrom` writes to the vector only, and puts what it receives behind what was stored. -/
def Kept (b : Buffer) : Call → Prop
  | .recvFrom chunks stop =>
      WindowsInside b.restore chunks ∧
        (b.recvFrom chunks stop).1.dataSize = b.dataSize + chunks.flatten.length ∧
        (b.recvFrom chunks stop).1.data = b.data ++ chunks.flatten
  | .setQuery _ => True
  | .setError _ => True

/-- A buffer that `RecvFrom` finds written by hand is no longer than what one doubling makes room
for. -/
def Short (b : Buffer) : Call → Prop
  | .recvFrom _ _ => b.bufSize = 0 → b.dataSize ≤ 2 * defaultSize
  | .setQuery _ => True
  | .setError _ => True

/-- A buffer is written by hand or received into. -/
def Settled (b : Buffer) : Prop :=
  (b.bufSize = 0 ∧ b.dataSize = b.buf.length) ∨ (0 < b.bufSize ∧ Roomy b)

variable {b b' : Buffer} {chunks : List Bytes} {stop : RecvEnd}

theorem windowInside_of_roomy (h : Roomy b) : WindowInside b := by
  have hdata := h.dataSize
  have hlength := h.length
  rw [WindowInside]
  omega

theorem receive_run_spec (hb : Roomy b) (h : Fits b chunks) :
    WindowsInside b chunks ∧ Roomy (chunks.foldl Buffer.receive b) := by
  induction chunks generalizing b with
  | nil => exact ⟨windowInside_of_roomy hb, hb⟩
  | cons chunk chunks ih =>
      obtain ⟨hroomy, -⟩ := receive_spec hb h.1
      obtain ⟨hwindows, hlast⟩ := ih hroomy h.2
      exact ⟨⟨windowInside_of_roomy hb, hwindows⟩, hlast⟩

theorem bufSize_foldl_receive_pos (hb : 0 < b.bufSize) :
    0 < (chunks.foldl Buffer.receive b).bufSize := by
  induction chunks generalizing b with
  | nil => exact hb
  | cons chunk chunks ih =>
      refine ih ?_
      rw [Buffer.receive]
      split
      · exact Nat.mul_pos hb (by decide)
      · exact hb

theorem recvFrom_fst : (b.recvFrom chunks stop).1 = chunks.foldl Buffer.receive b.restore := by
  cases stop <;> rfl

theorem windowInside_of_windowsInside (h : WindowsInside b chunks) : WindowInside b := by
  cases chunks with
  | nil => exact h
  | cons chunk chunks => exact h.1

theorem restore_of_written (h : b.bufSize = 0) :
    b.restore.dataSize = b.dataSize ∧
      b.restore.bufSize = (if b.dataSize > defaultSize then defaultSize * 2 else defaultSize) ∧
      b.restore.buf = resize (b.restore.bufSize * 2) b.buf := by
  rw [Buffer.restore, if_pos h]
  exact ⟨rfl, rfl, rfl⟩

theorem restore_of_received (h : 0 < b.bufSize) : b.restore = b := by
  rw [Buffer.restore, if_neg (Nat.ne_of_gt h)]

theorem short_of_windowInside (h : WindowInside b.restore) (hwritten : b.bufSize = 0) :
    b.dataSize ≤ 2 * defaultSize := by
  obtain ⟨hdata, hsize, hbuf⟩ := restore_of_written hwritten
  rw [WindowInside, hbuf, length_resize, hdata, hsize] at h
  rw [defaultSize] at h ⊢
  split at h <;> omega

theorem roomy_restore (h : Settled b) (hshort : b.bufSize = 0 → b.dataSize ≤ 2 * defaultSize) :
    0 < b.restore.bufSize ∧ Roomy b.restore ∧ b.restore.dataSize = b.dataSize ∧
      b.restore.data = b.data := by
  rcases h with ⟨hwritten, hwhole⟩ | ⟨hpos, hroomy⟩
  · have hle := hshort hwritten
    obtain ⟨hdata, hsize, hbuf⟩ := restore_of_written hwritten
    have hroom : b.dataSize ≤ b.restore.bufSize ∧ 0 < b.restore.bufSize := by
      rw [hsize]
      rw [defaultSize] at hle ⊢
      split <;> omega
    refine ⟨hroom.2, ⟨by omega, by rw [hbuf, length_resize]; omega⟩, hdata, ?_⟩
    rw [Buffer.data, hdata, hbuf, take_resize (by omega) (by omega)]
    rfl
  · rw [restore_of_received hpos]
    exact ⟨hpos, hroomy, rfl, rfl⟩

theorem dataSize_foldl_receive :
    (chunks.foldl Buffer.receive b).dataSize = b.dataSize + chunks.flatten.length := by
  induction chunks generalizing b with
  | nil => rfl
  | cons chunk chunks ih =>
      have hnext : (b.receive chunk).dataSize = b.dataSize + chunk.length := by
        rw [Buffer.receive]
        split <;> rfl
      rw [List.foldl_cons, ih, hnext, List.flatten_cons, List.length_append, Nat.add_assoc]

theorem kept_iff_short {c : Call} (h : Settled b) (hoffered : Offered b c) :
    Kept b c ↔ Short b c := by
  cases c with
  | recvFrom chunks stop =>
      constructor
      · rintro ⟨hwindows, -⟩ hwritten
        exact short_of_windowInside (windowInside_of_windowsInside hwindows) hwritten
      · intro hshort
        obtain ⟨-, hroomy, hsize, hdata⟩ := roomy_restore h hshort
        refine ⟨(receive_run_spec hroomy hoffered).1, ?_, ?_⟩
        · rw [recvFrom_fst, dataSize_foldl_receive, hsize]
        · rw [recvFrom_fst, data_foldl_receive hroomy hoffered, hdata]
  | setQuery q => exact Iff.rfl
  | setError e => exact Iff.rfl

theorem settled_new : Settled .new :=
  .inr ⟨by decide, Nat.zero_le _, length_resize _ _⟩

theorem settled_setError {e : Conn.Error} (h : setError e = some b) : Settled b := by
  simp only [setError, Option.bind_eq_bind, Option.bind_eq_some_iff] at h
  obtain ⟨s, -, c, -, m, -, hb⟩ := h
  obtain rfl := Option.some.inj hb
  exact .inl ⟨rfl, rfl⟩

theorem settled_call {c : Call} (h : Settled b) (hoffered : Offered b c) (hshort : Short b c)
    (hcall : call b c = .ok b') : Settled b' := by
  cases c with
  | recvFrom chunks stop =>
      obtain ⟨hpos, hroomy, -⟩ := roomy_restore h hshort
      rw [call, recvFrom_fst, Except.ok.injEq] at hcall
      subst hcall
      exact .inr ⟨bufSize_foldl_receive_pos hpos, (receive_run_spec hroomy hoffered).2⟩
  | setQuery q =>
      rw [call, Except.ok.injEq] at hcall
      subst hcall
      exact .inl ⟨rfl, rfl⟩
  | setError e =>
      rw [call] at hcall
      cases herror : setError e with
      | none => simp [herror] at hcall
      | some b₁ =>
          simp only [herror, Except.ok.injEq] at hcall
          subst hcall
          exact settled_setError herror

theorem kept_run_iff {calls : List Call} (hoffered : AtEachTurn call .new Offered calls) :
    AtEachTurn call .new Kept calls ↔ AtEachTurn call .new Short calls :=
  atEachTurn_congr_of (I := Settled) settled_new
    (fun _ _ _ h hoffered hkept hcall =>
      settled_call h hoffered ((kept_iff_short h hoffered).mp hkept) hcall)
    (fun _ _ h hoffered => kept_iff_short h hoffered) hoffered

instance decidableWindowsInside : (b : Buffer) → (chunks : List Bytes) →
    Decidable (WindowsInside b chunks)
  | b, [] => inferInstanceAs (Decidable (b.dataSize + b.bufSize ≤ b.buf.length))
  | b, chunk :: chunks =>
      have := decidableWindowsInside (b.receive chunk) chunks
      inferInstanceAs (Decidable (b.dataSize + b.bufSize ≤ b.buf.length ∧
        WindowsInside (b.receive chunk) chunks))

instance (b : Buffer) : (c : Call) → Decidable (Kept b c)
  | .recvFrom _ _ => inferInstanceAs (Decidable (_ ∧ _ ∧ _))
  | .setQuery _ => isTrue trivial
  | .setError _ => isTrue trivial

instance (b : Buffer) : (c : Call) → Decidable (Offered b c)
  | .recvFrom chunks _ => inferInstanceAs (Decidable (Fits b.restore chunks))
  | .setQuery _ => isTrue trivial
  | .setError _ => isTrue trivial

/-- A query is received, one of this length is written in its place, and `recv` is called again. -/
def writtenThenReceived (n : Nat) : List Call :=
  [.recvFrom [[81, 0, 0, 0, 5, 0]] .wouldBlock, .setQuery (List.replicate n 65),
    .recvFrom [[88, 0, 0, 0, 4]] .wouldBlock]

theorem offered_writtenThenReceived :
    AtEachTurn call .new Offered (writtenThenReceived 2043) := by
  decide +kernel

theorem kept_writtenThenReceived :
    AtEachTurn call .new Kept (writtenThenReceived 2043) ↔
      AtEachTurn call .new Short (writtenThenReceived 2043) :=
  kept_run_iff offered_writtenThenReceived

/-- The vector gets 4096 bytes; the data of 2049 and the window of 2048 behind it have no room. -/
theorem not_kept_writtenThenReceived :
    AtEachTurn call .new Offered (writtenThenReceived 2043) ∧
      ¬AtEachTurn call .new Kept (writtenThenReceived 2043) :=
  ⟨offered_writtenThenReceived, by decide +kernel⟩

end PgFort.BufferCalls
