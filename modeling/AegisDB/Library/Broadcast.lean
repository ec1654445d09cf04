import Mathlib.Data.List.Basic
import Mathlib.Tactic

/-!
# Broadcast channels

Every value that is sent to a broadcast channel is seen by all its receivers, in the order in which
it was sent.  A receiver that is too far behind is told how many values it has missed, and goes on
behind them.  The channel itself is a parameter, with what is relied on; what a receiver has got so
far is followed along the values that were sent.
-/

namespace AegisDB

/-- What a receiver answers. -/
inductive TryRecv (α : Type) where
  | ok (value : α)
  | empty
  | closed
  | lagged (missed : ℕ)
deriving DecidableEq

/-- A broadcast channel, with what is documented of it. -/
structure Broadcast (α : Type) where
  Sender : Type
  Receiver : Type
  channel : ℕ → Sender
  /-- Send a value; the result is the number of receivers, if there are any. -/
  send : Sender → α → Option ℕ × Sender
  subscribe : Sender → Receiver × Sender
  tryRecv : Sender → Receiver → TryRecv α × Receiver
  sent : Sender → List α
  next : Receiver → ℕ
  sent_channel : ∀ capacity, sent (channel capacity) = []
  sent_send : ∀ sender value, sent (send sender value).2 = sent sender ++ [value]
  sent_subscribe : ∀ sender, sent (subscribe sender).2 = sent sender
  next_subscribe : ∀ sender, next (subscribe sender).1 = (sent sender).length
  tryRecv_ok : ∀ {sender receiver value receiver'},
    tryRecv sender receiver = (.ok value, receiver') →
      (sent sender)[next receiver]? = some value ∧ next receiver' = next receiver + 1
  tryRecv_lagged : ∀ {sender receiver missed receiver'},
    tryRecv sender receiver = (.lagged missed, receiver') →
      next receiver' = next receiver + missed ∧ next receiver' ≤ (sent sender).length
  tryRecv_empty : ∀ {sender receiver receiver'},
    tryRecv sender receiver = (.empty, receiver') →
      (sent sender).length ≤ next receiver ∧ next receiver' = next receiver
  tryRecv_closed : ∀ {sender receiver receiver'},
    tryRecv sender receiver = (.closed, receiver') → next receiver' = next receiver

namespace Broadcast

variable {α : Type}

/-- A broadcast channel that keeps the last values in a list, as many as it was made for. -/
def ofList (α : Type) : Broadcast α where
  Sender := ℕ × List α × ℕ
  Receiver := ℕ
  channel capacity := (capacity, [], 0)
  send s value := (if s.2.2 = 0 then none else some s.2.2, (s.1, s.2.1 ++ [value], s.2.2))
  subscribe s := (s.2.1.length, (s.1, s.2.1, s.2.2 + 1))
  tryRecv s next :=
    if next + s.1 < s.2.1.length then
      (.lagged (s.2.1.length - s.1 - next), s.2.1.length - s.1)
    else
      match s.2.1[next]? with
      | some value => (.ok value, next + 1)
      | none => (.empty, next)
  sent s := s.2.1
  next r := r
  sent_channel _ := rfl
  sent_send _ _ := rfl
  sent_subscribe _ := rfl
  next_subscribe _ := rfl
  tryRecv_ok h := by
    split_ifs at h
    · cases h
    · split at h
      · cases h
        exact ⟨by assumption, rfl⟩
      · cases h
  tryRecv_lagged h := by
    split_ifs at h
    · cases h
      omega
    · split at h <;> cases h
  tryRecv_empty h := by
    split_ifs at h
    · cases h
    · split at h
      · cases h
      · rename_i hnone
        cases h
        exact ⟨List.getElem?_eq_none_iff.mp hnone, rfl⟩
  tryRecv_closed h := by
    split_ifs at h
    · cases h
    · split at h <;> cases h

/-! ## What a receiver has got -/

variable {B : Broadcast α}

/-- What a receiver has got of the values that were sent: it was made behind some of them, has gone
on behind others, and has got of these the ones that it wants, or only some of them if it was ever
too far behind. -/
structure Followed (B : Broadcast α) (wanted : α → Bool) (receiver : B.Receiver) (got : List α)
    (missing : Bool) (before seen : List α) : Prop where
  next_eq : B.next receiver = (before ++ seen).length
  sublist : got.Sublist (seen.filter wanted)
  complete : missing = false → got = seen.filter wanted

variable {wanted : α → Bool} {sender : B.Sender} {receiver receiver' : B.Receiver} {got : List α}
  {missing : Bool} {before seen rest : List α}

theorem followed_subscribe (sender : B.Sender) : Followed B wanted (B.subscribe sender).1 [] false
    (B.sent sender) [] := by
  refine ⟨?_, List.nil_sublist _, fun _ => rfl⟩
  rw [List.append_nil]
  exact B.next_subscribe sender

theorem Followed.ok (h : Followed B wanted receiver got missing before seen)
    (hsent : B.sent sender = before ++ seen ++ rest) {value : α}
    (hrecv : B.tryRecv sender receiver = (.ok value, receiver')) :
    ∃ rest', rest = value :: rest' ∧ Followed B wanted receiver'
      (if wanted value then got ++ [value] else got) missing before (seen ++ [value]) := by
  obtain ⟨hvalue, hnext⟩ := B.tryRecv_ok hrecv
  rw [hsent, h.next_eq, List.getElem?_append_right le_rfl, Nat.sub_self] at hvalue
  cases rest with
  | nil => cases hvalue
  | cons first rest' =>
    obtain rfl := Option.some.inj hvalue
    have hfilter : (seen ++ [first]).filter wanted =
        seen.filter wanted ++ if wanted first then [first] else [] := by
      rw [List.filter_append, List.filter_cons, List.filter_nil]
    refine ⟨rest', rfl, ?_, ?_, fun hall => ?_⟩
    · simp only [hnext, h.next_eq, List.length_append, List.length_singleton, Nat.add_assoc]
    · rw [hfilter]
      split_ifs
      · exact h.sublist.append_right _
      · rw [List.append_nil]
        exact h.sublist
    · rw [hfilter, ← h.complete hall]
      split_ifs
      · rfl
      · rw [List.append_nil]

theorem Followed.lagged (h : Followed B wanted receiver got missing before seen)
    (hsent : B.sent sender = before ++ seen ++ rest) {missed : ℕ}
    (hrecv : B.tryRecv sender receiver = (.lagged missed, receiver')) :
    Followed B wanted receiver' got true before (seen ++ rest.take missed) := by
  obtain ⟨hnext, hle⟩ := B.tryRecv_lagged hrecv
  refine ⟨?_, ?_, fun h => (nomatch h)⟩
  · rw [hsent] at hle
    simp only [hnext, h.next_eq, List.length_append, List.length_take] at hle ⊢
    omega
  · rw [List.filter_append]
    exact h.sublist.trans (List.sublist_append_left _ _)

theorem Followed.empty (h : Followed B wanted receiver got missing before seen)
    (hsent : B.sent sender = before ++ seen ++ rest)
    (hrecv : B.tryRecv sender receiver = (.empty, receiver')) : rest = [] := by
  obtain ⟨hend, -⟩ := B.tryRecv_empty hrecv
  rw [hsent, h.next_eq, List.length_append] at hend
  exact List.length_eq_zero_iff.mp (by omega)

theorem Followed.of_next_eq (h : Followed B wanted receiver got missing before seen)
    (hnext : B.next receiver' = B.next receiver) :
    Followed B wanted receiver' got missing before seen :=
  ⟨hnext.trans h.next_eq, h.sublist, h.complete⟩

end Broadcast

end AegisDB
