import Mathlib.Data.List.Basic

namespace PgFort.Framing

abbrev Bytes := List UInt8

structure Message where
  type : UInt8
  payload : Bytes
  deriving DecidableEq, Repr

/-- The bytes of a number modulo `2 ^ 32`, the highest first. -/
def bigEndian (n : Nat) : Bytes :=
  [UInt8.ofNat (n / 16777216), UInt8.ofNat (n / 65536), UInt8.ofNat (n / 256), UInt8.ofNat n]

/-- A length as the protocol writes it: the most significant byte first. -/
def readBigEndian (bytes : Bytes) : Nat :=
  bytes.foldl (fun n byte => n * 256 + byte.toNat) 0

/-- A message on the wire. -/
def Message.encode (m : Message) : Bytes :=
  m.type :: (bigEndian (m.payload.length + 4) ++ m.payload)

theorem readBigEndian_bigEndian {n : Nat} (h : n < 4294967296) : readBigEndian (bigEndian n) = n := by
  simp only [readBigEndian, bigEndian, List.foldl_cons, List.foldl_nil, UInt8.toNat_ofNat']
  omega

theorem bigEndian_readBigEndian (b₃ b₂ b₁ b₀ : UInt8) :
    bigEndian (readBigEndian [b₃, b₂, b₁, b₀]) = [b₃, b₂, b₁, b₀] := by
  have h₃ := b₃.toNat_lt
  have h₂ := b₂.toNat_lt
  have h₁ := b₁.toNat_lt
  have h₀ := b₀.toNat_lt
  simp only [readBigEndian, bigEndian, List.foldl_cons, List.foldl_nil, List.cons.injEq, and_true,
    ← UInt8.toNat_inj, UInt8.toNat_ofNat']
  omega

def firstMessage : Bytes → Option (Message × Bytes)
  | type :: b₃ :: b₂ :: b₁ :: b₀ :: rest =>
      let length := readBigEndian [b₃, b₂, b₁, b₀]
      if 4 ≤ length ∧ length - 4 ≤ rest.length then
        some (⟨type, rest.take (length - 4)⟩, rest.drop (length - 4))
      else none
  | _ => none

theorem firstMessage_append {a b rest : Bytes} {m : Message} (h : firstMessage a = some (m, rest)) :
    firstMessage (a ++ b) = some (m, rest ++ b) := by
  rw [firstMessage.eq_def] at h
  split at h
  · rename_i type b₃ b₂ b₁ b₀ body
    simp only at h
    split at h
    · rename_i hlength
      obtain ⟨rfl, rfl⟩ := Prod.mk.inj (Option.some.inj h)
      show firstMessage (type :: b₃ :: b₂ :: b₁ :: b₀ :: (body ++ b)) = _
      rw [firstMessage, if_pos ⟨hlength.1, by rw [List.length_append]; omega⟩,
        List.take_append_of_le_length hlength.2, List.drop_append_of_le_length hlength.2]
    · exact absurd h (by simp)
  · exact absurd h (by simp)

theorem length_of_firstMessage {a rest : Bytes} {m : Message} (h : firstMessage a = some (m, rest)) :
    rest.length < a.length := by
  rw [firstMessage.eq_def] at h
  split at h
  · rename_i type b₃ b₂ b₁ b₀ body
    simp only at h
    split at h
    · obtain ⟨-, rfl⟩ := Prod.mk.inj (Option.some.inj h)
      simp only [List.length_drop, List.length_cons]
      omega
    · exact absurd h (by simp)
  · exact absurd h (by simp)

theorem eq_of_firstMessage {a rest : Bytes} {m : Message} (h : firstMessage a = some (m, rest)) :
    a = m.encode ++ rest := by
  rw [firstMessage.eq_def] at h
  split at h
  · rename_i type b₃ b₂ b₁ b₀ body
    simp only at h
    split at h
    · rename_i hlength
      obtain ⟨rfl, rfl⟩ := Prod.mk.inj (Option.some.inj h)
      have htotal : (body.take (readBigEndian [b₃, b₂, b₁, b₀] - 4)).length + 4 =
          readBigEndian [b₃, b₂, b₁, b₀] := by
        rw [List.length_take]
        omega
      rw [Message.encode, htotal, bigEndian_readBigEndian, List.cons_append, List.append_assoc,
        List.take_append_drop]
      rfl
    · exact absurd h (by simp)
  · exact absurd h (by simp)

theorem firstMessage_encode {m : Message} (h : m.payload.length + 4 < 4294967296) (rest : Bytes) :
    firstMessage (m.encode ++ rest) = some (m, rest) := by
  have hread := readBigEndian_bigEndian h
  show firstMessage (m.type :: _ :: _ :: _ :: _ :: (m.payload ++ rest)) = _
  rw [firstMessage]
  rw [bigEndian] at hread
  simp only [hread, Nat.add_sub_cancel, List.length_append, List.take_left', List.drop_left']
  rw [if_pos (by omega)]

/-- As many messages of a stream as are there as a whole, and the rest. -/
def split : Nat → Bytes → List Message × Bytes
  | 0, bytes => ([], bytes)
  | n + 1, bytes =>
      match firstMessage bytes with
      | none => ([], bytes)
      | some (m, rest) => (m :: (split n rest).1, (split n rest).2)

/-- The messages that have come in whole. -/
def messages (stream : Bytes) : List Message :=
  (split stream.length stream).1

/-- The beginning of a message that has not. -/
def pending (stream : Bytes) : Bytes :=
  (split stream.length stream).2

theorem split_of_none {bytes : Bytes} (h : firstMessage bytes = none) (n : Nat) :
    split n bytes = ([], bytes) := by
  cases n with
  | zero => rfl
  | succ n => rw [split, h]

theorem split_of_length_le {n : Nat} {bytes : Bytes} (h : bytes.length ≤ n) :
    split n bytes = (messages bytes, pending bytes) := by
  induction n using Nat.strongRecOn generalizing bytes with
  | _ n ih =>
      cases hfirst : firstMessage bytes with
      | none => rw [messages, pending, split_of_none hfirst, split_of_none hfirst]
      | some mr =>
          obtain ⟨m, rest⟩ := mr
          have hlength := length_of_firstMessage hfirst
          obtain ⟨n, rfl⟩ : ∃ n', n = n' + 1 := ⟨n - 1, by omega⟩
          obtain ⟨k, hk⟩ : ∃ k, bytes.length = k + 1 := ⟨bytes.length - 1, by omega⟩
          rw [messages, pending, hk, split, split, hfirst]
          simp only
          rw [ih n (by omega) (by omega : rest.length ≤ n),
            ih k (by omega) (by omega : rest.length ≤ k)]

theorem messages_of_none {bytes : Bytes} (h : firstMessage bytes = none) : messages bytes = [] := by
  rw [messages, split_of_none h]

theorem pending_of_none {bytes : Bytes} (h : firstMessage bytes = none) : pending bytes = bytes := by
  rw [pending, split_of_none h]

theorem split_of_some {bytes rest : Bytes} {m : Message} (h : firstMessage bytes = some (m, rest)) :
    split bytes.length bytes = (m :: messages rest, pending rest) := by
  have hlength := length_of_firstMessage h
  obtain ⟨k, hk⟩ : ∃ k, bytes.length = k + 1 := ⟨bytes.length - 1, by omega⟩
  rw [hk, split, h]
  simp only
  rw [split_of_length_le (by omega : rest.length ≤ k)]

theorem messages_of_some {bytes rest : Bytes} {m : Message}
    (h : firstMessage bytes = some (m, rest)) : messages bytes = m :: messages rest := by
  rw [messages, split_of_some h]

theorem pending_of_some {bytes rest : Bytes} {m : Message}
    (h : firstMessage bytes = some (m, rest)) : pending bytes = pending rest := by
  rw [pending, split_of_some h]

/-- Induction over a stream, message by message. -/
@[elab_as_elim]
theorem induction {motive : Bytes → Prop} (incomplete : ∀ bytes, firstMessage bytes = none → motive bytes)
    (message : ∀ bytes m rest, firstMessage bytes = some (m, rest) → motive rest → motive bytes)
    (bytes : Bytes) : motive bytes := by
  induction hlength : bytes.length using Nat.strongRecOn generalizing bytes with
  | _ n ih =>
      cases hfirst : firstMessage bytes with
      | none => exact incomplete bytes hfirst
      | some mr =>
          obtain ⟨m, rest⟩ := mr
          have hlt := length_of_firstMessage hfirst
          exact message bytes m rest hfirst (ih rest.length (by omega) rest rfl)

theorem firstMessage_pending (stream : Bytes) : firstMessage (pending stream) = none := by
  induction stream using induction with
  | incomplete bytes h => rw [pending_of_none h, h]
  | message bytes m rest h ih => rw [pending_of_some h, ih]

theorem messages_append (a b : Bytes) : messages (a ++ b) = messages a ++ messages (pending a ++ b) := by
  induction a using induction with
  | incomplete bytes h => rw [messages_of_none h, pending_of_none h, List.nil_append]
  | message bytes m rest h ih =>
      rw [messages_of_some (firstMessage_append h), messages_of_some h, pending_of_some h, ih,
        List.cons_append]

theorem flatMap_messages_append_pending (stream : Bytes) :
    (messages stream).flatMap Message.encode ++ pending stream = stream := by
  induction stream using induction with
  | incomplete bytes h => rw [messages_of_none h, pending_of_none h, List.flatMap_nil, List.nil_append]
  | message bytes m rest h ih =>
      rw [messages_of_some h, pending_of_some h, List.flatMap_cons, List.append_assoc, ih,
        eq_of_firstMessage h]

theorem messages_prefix_of_prefix {ms : List Message} {stream : Bytes}
    (hms : ∀ m ∈ ms, m.payload.length + 4 < 4294967296)
    (h : stream <+: ms.flatMap Message.encode) : messages stream <+: ms := by
  induction stream using induction generalizing ms with
  | incomplete bytes hfirst =>
      rw [messages_of_none hfirst]
      exact List.nil_prefix
  | message bytes m rest hfirst ih =>
      rw [messages_of_some hfirst]
      obtain ⟨tail, htail⟩ := h
      have hwhole := firstMessage_append (b := tail) hfirst
      cases ms with
      | nil =>
          rw [List.flatMap_nil] at htail
          rw [htail] at hwhole
          exact nomatch hwhole
      | cons x xs =>
          rw [htail, List.flatMap_cons,
            firstMessage_encode (hms x List.mem_cons_self)] at hwhole
          obtain ⟨rfl, hrest⟩ := Prod.mk.inj (Option.some.inj hwhole)
          exact List.prefix_cons_inj x |>.mpr
            (ih (fun y hy => hms y (List.mem_cons_of_mem x hy)) ⟨tail, hrest.symm⟩)

theorem firstMessage_nil : firstMessage [] = none := rfl

theorem messages_encode {m : Message} (h : m.payload.length + 4 < 4294967296) :
    messages m.encode = [m] := by
  have hfirst := firstMessage_encode h []
  rw [List.append_nil] at hfirst
  rw [messages_of_some hfirst, messages_of_none firstMessage_nil]

theorem pending_encode {m : Message} (h : m.payload.length + 4 < 4294967296) :
    pending m.encode = [] := by
  have hfirst := firstMessage_encode h []
  rw [List.append_nil] at hfirst
  rw [pending_of_some hfirst, pending_of_none firstMessage_nil]

end PgFort.Framing
