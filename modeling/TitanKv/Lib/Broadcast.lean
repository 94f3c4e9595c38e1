import Mathlib.Data.List.Basic

/-! # Broadcast channels

The values sent on a channel are read by each receiver in their order, from where it
joined. A receiver that is further behind than the channel's capacity is moved on to
the oldest value still kept, so that what it gets is a subsequence of what was sent. -/

namespace Broadcast

variable {α : Type} {capacity : Nat} {sent : List α} {next n : Nat} {a : α}

/-- What a receiver finds at its position: nothing yet, that the values there are
gone, or the next value. -/
inductive Poll (α : Type) where
  | pending
  | lagged (oldest : Nat)
  | value (a : α)

def poll (capacity : Nat) (sent : List α) (next : Nat) : Poll α :=
  if next + capacity < sent.length then .lagged (sent.length - capacity)
  else match sent[next]? with
    | some a => .value a
    | none => .pending

structure Receiver (α : Type) where
  start : Nat
  next : Nat
  got : List α
  deriving DecidableEq

def join (sent : List α) : Receiver α := ⟨sent.length, sent.length, []⟩

section Poll

theorem getElem?_of_value (h : poll capacity sent next = .value a) : sent[next]? = some a := by
  unfold poll at h
  split at h
  · cases h
  · split at h
    · cases h
      assumption
    · cases h

theorem lt_of_value (h : poll capacity sent next = .value a) : next < sent.length :=
  (List.getElem?_eq_some_iff.mp (getElem?_of_value h)).1

theorem unread_of_value (h : poll capacity sent next = .value a) :
    sent.drop next = a :: sent.drop (next + 1) := by
  obtain ⟨hlt, rfl⟩ := List.getElem?_eq_some_iff.mp (getElem?_of_value h)
  exact List.drop_eq_getElem_cons hlt

theorem bounds_of_lagged (h : poll capacity sent next = .lagged n) :
    next < n ∧ n = sent.length - capacity := by
  unfold poll at h
  split at h
  · cases h
    omega
  · split at h <;> cases h

/-- What is left to read after a lag was left before. -/
theorem unread_of_lagged (h : poll capacity sent next = .lagged n) :
    sent.drop n <:+ sent.drop next := by
  obtain ⟨hlt, -⟩ := bounds_of_lagged h
  rw [show n = next + (n - next) by omega, ← List.drop_drop]
  exact List.drop_suffix _ _

theorem le_of_pending (h : poll capacity sent next = .pending) : sent.length ≤ next := by
  unfold poll at h
  split at h
  · cases h
  · split at h
    · cases h
    · rename_i hnone
      exact List.getElem?_eq_none_iff.mp hnone

/-- Reading on from any position behind the end leads to the last value: the
induction over the positions a receiver passes. -/
theorem read_on (hcap : 0 < capacity) {P : Nat → Prop}
    (hlast : ∀ next a, poll capacity sent next = .value a → next + 1 = sent.length → P next)
    (hvalue : ∀ next a, poll capacity sent next = .value a → P (next + 1) → P next)
    (hlagged : ∀ next n, poll capacity sent next = .lagged n → P n → P next)
    (h : next < sent.length) : P next := by
  induction hk : sent.length - next using Nat.strongRecOn generalizing next with
  | ind k ih =>
    cases hp : poll capacity sent next with
    | pending => exact absurd (le_of_pending hp) (by omega)
    | lagged n =>
      obtain ⟨hlt, hn⟩ := bounds_of_lagged hp
      exact hlagged next n hp (ih (sent.length - n) (by omega) (by omega) rfl)
    | value a =>
      by_cases hend : next + 1 = sent.length
      · exact hlast next a hp hend
      · exact hvalue next a hp (ih (sent.length - (next + 1)) (by omega) (by omega) rfl)

end Poll

namespace Receiver

variable {r : Receiver α}

def take (r : Receiver α) (a : α) : Receiver α := { r with next := r.next + 1, got := r.got ++ [a] }

def skip (r : Receiver α) (n : Nat) : Receiver α := { r with next := n }

/-- What the receiver got is a subsequence of what was sent from where it joined to
where it stands. -/
structure Sound (sent : List α) (r : Receiver α) : Prop where
  next_le : r.next ≤ sent.length
  start_le : r.start ≤ r.next
  got : r.got.Sublist ((sent.take r.next).drop r.start)

theorem sound_join (sent : List α) : Sound sent (join sent) :=
  ⟨Nat.le_refl _, Nat.le_refl _, by simp [join]⟩

theorem Sound.send (h : Sound sent r) (a : α) : Sound (sent ++ [a]) r where
  next_le := by
    have := h.next_le
    rw [List.length_append]
    omega
  start_le := h.start_le
  got := by
    rw [List.take_append_of_le_length h.next_le]
    exact h.got

theorem Sound.take (h : Sound sent r) (hp : poll capacity sent r.next = .value a) :
    Sound sent (r.take a) where
  next_le := lt_of_value hp
  start_le := Nat.le_succ_of_le h.start_le
  got := by
    obtain ⟨hlt, ha⟩ := List.getElem?_eq_some_iff.mp (getElem?_of_value hp)
    have hstart : r.start ≤ (sent.take r.next).length := by
      rw [List.length_take]
      have := h.start_le
      omega
    have htake : sent.take (r.next + 1) = sent.take r.next ++ [a] := by
      rw [List.take_succ_eq_append_getElem hlt, ha]
    change (r.got ++ [a]).Sublist ((sent.take (r.next + 1)).drop r.start)
    rw [htake, List.drop_append_of_le_length hstart]
    exact h.got.append (List.Sublist.refl [a])

theorem Sound.skip (h : Sound sent r) (hp : poll capacity sent r.next = .lagged n) :
    Sound sent (r.skip n) where
  next_le := by
    have := (bounds_of_lagged hp).2
    change n ≤ sent.length
    omega
  start_le := Nat.le_trans h.start_le (Nat.le_of_lt (bounds_of_lagged hp).1)
  got := by
    have hle : r.next ≤ n := Nat.le_of_lt (bounds_of_lagged hp).1
    have hpre : sent.take r.next <+: sent.take n := List.take_prefix_take_left hle
    exact h.got.trans (hpre.sublist.drop r.start)

theorem unread_join (sent : List α) : sent.drop (join sent).next = [] := List.drop_length

theorem unread_send (h : r.next ≤ sent.length) (a : α) :
    (sent ++ [a]).drop r.next = sent.drop r.next ++ [a] := List.drop_append_of_le_length h

/-- The receiver got a prefix of the values sent since it joined, and while it is there
the others wait for it: none has been skipped. -/
structure Follows (sent values : List α) (isLive : Prop) (r : Receiver α) : Prop where
  sound : Sound sent r
  got : r.got <+: values
  unread : isLive → values = r.got ++ sent.drop r.next

variable {values : List α} {isLive isLive' : Prop}

theorem follows_join (sent : List α) (isLive : Prop) : Follows sent [] isLive (join sent) :=
  ⟨sound_join sent, List.nil_prefix, fun _ => (unread_join sent).symm⟩

theorem Follows.mono (h : Follows sent values isLive r) (himp : isLive' → isLive) :
    Follows sent values isLive' r :=
  ⟨h.sound, h.got, fun hlive => h.unread (himp hlive)⟩

theorem Follows.send (h : Follows sent values isLive r) (a : α) :
    Follows (sent ++ [a]) (values ++ [a]) isLive r where
  sound := h.sound.send a
  got := h.got.trans (List.prefix_append ..)
  unread hlive := by rw [unread_send h.sound.next_le, ← List.append_assoc, ← h.unread hlive]

/-- A value that is not kept, for nobody is there. -/
theorem Follows.miss (h : Follows sent values isLive r) (hgone : ¬ isLive) (a : α) :
    Follows sent (values ++ [a]) isLive r :=
  ⟨h.sound, h.got.trans (List.prefix_append ..), fun hlive => absurd hlive hgone⟩

theorem Follows.take (h : Follows sent values isLive r) (hlive : isLive)
    (hp : poll capacity sent r.next = .value a) :
    Follows sent values isLive' (r.take a) := by
  have hnext : values = (r.take a).got ++ sent.drop (r.take a).next := by
    rw [h.unread hlive, unread_of_value hp, Receiver.take, List.append_assoc]
    rfl
  exact ⟨h.sound.take hp, ⟨_, hnext.symm⟩, fun _ => hnext⟩

end Receiver

end Broadcast
