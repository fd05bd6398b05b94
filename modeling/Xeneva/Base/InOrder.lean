import Mathlib

/-!
# A receiver of a stream in order

The abstract receiver of a stream: it has accepted a first part of the stream, handed a
first part of that to its reader, and knows that the stream has ended only when it has
accepted all of it.
-/

namespace Xeneva.Base

variable {α : Type*} {stream : List α}

structure Receiver (stream : List α) where
  accepted : ℕ
  read : ℕ
  finished : Bool
  read_le : read ≤ accepted
  accepted_le : accepted ≤ stream.length
  finished_all : finished → accepted = stream.length

namespace Receiver

def start (stream : List α) : Receiver stream := ⟨0, 0, false, Nat.le_refl _, Nat.zero_le _, nofun⟩

/-- What the reader got. -/
def delivered (r : Receiver stream) : List α := stream.take r.read

/-- What waits for the reader. -/
def waiting (r : Receiver stream) : List α := (stream.take r.accepted).drop r.read

def accept (r : Receiver stream) (n : ℕ) (h : r.accepted + n ≤ stream.length) :
    Receiver stream where
  accepted := r.accepted + n
  read := r.read
  finished := r.finished
  read_le := Nat.le_trans r.read_le (Nat.le_add_right _ _)
  accepted_le := h
  finished_all hf := by
    have := r.finished_all hf
    omega

def finish (r : Receiver stream) (h : r.accepted = stream.length) : Receiver stream :=
  { r with finished := true, finished_all := fun _ => h }

def deliver (r : Receiver stream) (n : ℕ) : Receiver stream where
  accepted := r.accepted
  read := r.read + min n (r.accepted - r.read)
  finished := r.finished
  read_le := by
    have := r.read_le
    omega
  accepted_le := r.accepted_le
  finished_all := r.finished_all

theorem waiting_length (r : Receiver stream) : r.waiting.length = r.accepted - r.read := by
  have := r.accepted_le
  simp [waiting]
  omega

theorem delivered_append_waiting (r : Receiver stream) :
    r.delivered ++ r.waiting = stream.take r.accepted := by
  have h := List.take_append_drop r.read (stream.take r.accepted)
  rwa [List.take_take, Nat.min_eq_left r.read_le] at h

theorem accept_waiting (r : Receiver stream) {n : ℕ} (h : r.accepted + n ≤ stream.length) :
    (r.accept n h).waiting = r.waiting ++ (stream.drop r.accepted).take n := by
  have hlen : r.read ≤ (stream.take r.accepted).length := by
    rw [List.length_take, Nat.min_eq_left r.accepted_le]
    exact r.read_le
  simp only [waiting, accept]
  rw [List.take_add, List.drop_append_of_le_length hlen]

theorem deliver_delivered (r : Receiver stream) (n : ℕ) :
    (r.deliver n).delivered = r.delivered ++ r.waiting.take n := by
  have h : r.waiting.take n = (stream.drop r.read).take (min n (r.accepted - r.read)) := by
    rw [waiting, List.drop_take, List.take_take]
  rw [h]
  exact List.take_add

theorem deliver_waiting (r : Receiver stream) (n : ℕ) :
    (r.deliver n).waiting = r.waiting.drop n := by
  have hlen := r.waiting_length
  have h : r.waiting.drop n = r.waiting.drop (min n (r.accepted - r.read)) := by
    rcases Nat.le_total n (r.accepted - r.read) with hn | hn
    · rw [Nat.min_eq_left hn]
    · rw [Nat.min_eq_right hn, List.drop_eq_nil_of_le (by omega),
        List.drop_eq_nil_of_le (by omega)]
  rw [h, waiting, waiting, List.drop_drop]
  rfl

end Receiver

end Xeneva.Base
