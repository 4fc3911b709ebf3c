import Mathlib.Data.Int.Order.Basic
import Mathlib.Data.List.Basic

/-! # Reliable links over FIFO channels

A sender accepts items and numbers them from 0. Frames to the receiver carry items, frames back carry
acknowledgements of all items below a number and requests for single items. Both channels are FIFO and may
lose any frame. `Ok` is what holds between the two ends, and a receiver that takes items in the order of
their numbers has got a prefix of the accepted ones.
-/

namespace ReliableLink

open Function List

variable {φ α : Type}

structure Codec (φ α : Type) where
  item : φ → Option (ℤ × α)
  ack : φ → Option ℤ
  request : φ → Option ℤ

def Before (c : Codec φ α) (f g : φ) : Prop :=
  ∀ v i, c.ack f = some v → c.request g = some i → v ≤ i

/-- The invariant of a link: all items below `acked` are acknowledged, `forth` and `back` are the frames on
the way. -/
structure Ok (c : Codec φ α) (window : ℤ) (accepted : List α) (acked : ℤ) (delivered : List α)
    (forth back : List φ) : Prop where
  items : ∀ f ∈ forth, ∀ k x, c.item f = some (k, x) →
    0 ≤ k ∧ accepted[k.toNat]? = some x ∧ k < acked + window
  delivered_prefix : delivered <+: accepted
  acked_le : acked ≤ delivered.length
  acks : ∀ f ∈ back, ∀ v, c.ack f = some v → v ≤ delivered.length
  requests : ∀ f ∈ back, ∀ i, c.request f = some i →
    acked ≤ i ∧ i < accepted.length ∧ i < acked + window
  order : back.Pairwise (Before c)

namespace Ok

variable {c : Codec φ α} {window acked : ℤ} {accepted delivered : List α} {forth back : List φ} {f : φ}

theorem start : Ok c window ([] : List α) 0 [] ([] : List φ) [] := by
  refine ⟨?_, prefix_refl [], le_refl 0, ?_, ?_, List.Pairwise.nil⟩
  · intro f hf
    exact absurd hf not_mem_nil
  · intro f hf
    exact absurd hf not_mem_nil
  · intro f hf
    exact absurd hf not_mem_nil

theorem sublist {forth' back' : List φ} (h : Ok c window accepted acked delivered forth back)
    (hforth : forth'.Sublist forth) (hback : back'.Sublist back) :
    Ok c window accepted acked delivered forth' back' where
  items f hf := h.items f (hforth.subset hf)
  delivered_prefix := h.delivered_prefix
  acked_le := h.acked_le
  acks f hf := h.acks f (hback.subset hf)
  requests f hf := h.requests f (hback.subset hf)
  order := h.order.sublist hback

theorem accept (h : Ok c window accepted acked delivered forth back) (x : α) :
    Ok c window (accepted ++ [x]) acked delivered forth back where
  items f hf k y hitem := by
    obtain ⟨hk, hget, hwindow⟩ := h.items f hf k y hitem
    exact ⟨hk, getElem?_append_left (List.getElem?_eq_some_iff.mp hget).1 ▸ hget, hwindow⟩
  delivered_prefix := h.delivered_prefix.trans (prefix_append accepted [x])
  acked_le := h.acked_le
  acks := h.acks
  requests f hf i hi := by
    obtain ⟨hacked, hlt, hwindow⟩ := h.requests f hf i hi
    refine ⟨hacked, ?_, hwindow⟩
    rw [length_append, length_singleton]
    omega
  order := h.order

theorem send (h : Ok c window accepted acked delivered forth back)
    (hf : ∀ k x, c.item f = some (k, x) → 0 ≤ k ∧ accepted[k.toNat]? = some x ∧ k < acked + window) :
    Ok c window accepted acked delivered (forth ++ [f]) back where
  items g hg := by
    rcases mem_append.mp hg with hg | hg
    · exact h.items g hg
    · rw [mem_singleton.mp hg]
      exact hf
  delivered_prefix := h.delivered_prefix
  acked_le := h.acked_le
  acks := h.acks
  requests := h.requests
  order := h.order

/-- The receiver sends a frame: it acknowledges what arrived, and requests what did not. -/
theorem reply (h : Ok c window accepted acked delivered forth back)
    (hack : ∀ v, c.ack f = some v → v ≤ delivered.length)
    (hrequest : ∀ i, c.request f = some i →
      (delivered.length : ℤ) ≤ i ∧ i < accepted.length ∧ i < acked + window) :
    Ok c window accepted acked delivered forth (back ++ [f]) where
  items := h.items
  delivered_prefix := h.delivered_prefix
  acked_le := h.acked_le
  acks g hg := by
    rcases mem_append.mp hg with hg | hg
    · exact h.acks g hg
    · rw [mem_singleton.mp hg]
      exact hack
  requests g hg i hi := by
    rcases mem_append.mp hg with hg | hg
    · exact h.requests g hg i hi
    · rw [mem_singleton.mp hg] at hi
      obtain ⟨hle, hlt, hwindow⟩ := hrequest i hi
      exact ⟨le_trans h.acked_le hle, hlt, hwindow⟩
  order := by
    refine pairwise_append.mpr ⟨h.order, pairwise_singleton _ f, ?_⟩
    intro g hg g' hg' v i hv hi
    rw [mem_singleton.mp hg'] at hi
    exact le_trans (h.acks g hg v hv) (hrequest i hi).1

/-- **An acknowledgement arrives** that acknowledges more: the requests behind it are for other items. -/
theorem acknowledge {v : ℤ} (h : Ok c window accepted acked delivered forth (f :: back))
    (hv : c.ack f = some v) (hmore : acked ≤ v) : Ok c window accepted v delivered forth back where
  items g hg k x hitem := by
    obtain ⟨hk, hget, hwindow⟩ := h.items g hg k x hitem
    exact ⟨hk, hget, by omega⟩
  delivered_prefix := h.delivered_prefix
  acked_le := h.acks f mem_cons_self v hv
  acks g hg := h.acks g (mem_cons_of_mem f hg)
  requests g hg i hi := by
    obtain ⟨hacked, hlt, hwindow⟩ := h.requests g (mem_cons_of_mem f hg) i hi
    have hbefore := (pairwise_cons.mp h.order).1 g hg v i hv hi
    exact ⟨hbefore, hlt, by omega⟩
  order := (pairwise_cons.mp h.order).2

theorem deliver {x : α} (h : Ok c window accepted acked delivered forth back)
    (hx : accepted[delivered.length]? = some x) :
    Ok c window accepted acked (delivered ++ [x]) forth back where
  items := h.items
  delivered_prefix := by
    obtain ⟨rest, rfl⟩ := h.delivered_prefix
    rw [getElem?_append_right (Nat.le_refl _), Nat.sub_self] at hx
    cases rest with
    | nil => simp at hx
    | cons y rest =>
      cases hx
      exact ⟨rest, by simp⟩
  acked_le := by
    have hle := h.acked_le
    rw [length_append, length_singleton]
    omega
  acks g hg v hv := by
    have hle := h.acks g hg v hv
    rw [length_append, length_singleton]
    omega
  requests := h.requests
  order := h.order

end Ok

/-! ## Receivers that reorder

A receiver may hold items that arrive early in a ring of slots, up to the number `top`, until all items
before them are there.
-/

/-- The items from `next` on that are held in the slots of their numbers. -/
structure Reorder (size : ℤ) (accepted : List α) (next top : ℤ) (seen : ℤ → Option α) : Prop where
  next_le : next ≤ top + 1
  held : ∀ slot x, seen slot = some x → ∃ k, next ≤ k ∧ k ≤ top ∧ k < next + size ∧
    slot = k % size ∧ accepted[k.toNat]? = some x

namespace Reorder

variable {size next top k : ℤ} {accepted : List α} {seen : ℤ → Option α} {x : α}

theorem eq_of_slot (hle : next ≤ k) (hlt : k < next + size) (hslot : next % size = k % size) :
    k = next := by
  have hzero : (k - next) % size = 0 := Int.emod_eq_emod_iff_emod_sub_eq_zero.mp hslot.symm
  rw [Int.emod_eq_of_lt (by omega) (by omega)] at hzero
  omega

theorem accept (h : Reorder size accepted next top seen) (y : α) :
    Reorder size (accepted ++ [y]) next top seen where
  next_le := h.next_le
  held slot x hx := by
    obtain ⟨k, hle, htop, hlt, hslot, hget⟩ := h.held slot x hx
    refine ⟨k, hle, htop, hlt, hslot, ?_⟩
    rw [getElem?_append_left (List.getElem?_eq_some_iff.mp hget).1]
    exact hget

theorem put (h : Reorder size accepted next top seen) {top' : ℤ} (hle : next ≤ k)
    (hlt : k < next + size) (htop : k ≤ top') (hmore : top ≤ top')
    (hget : accepted[k.toNat]? = some x) :
    Reorder size accepted next top' (update seen (k % size) (some x)) where
  next_le := by
    omega
  held slot y hy := by
    by_cases hslot : slot = k % size
    · rw [hslot, update_self] at hy
      cases hy
      exact ⟨k, hle, htop, hlt, hslot, hget⟩
    · rw [update_of_ne hslot] at hy
      obtain ⟨k', hle', htop', hrest⟩ := h.held slot y hy
      exact ⟨k', hle', by omega, hrest⟩

theorem take (h : Reorder size accepted next top seen) (hx : seen (next % size) = some x) :
    accepted[next.toNat]? = some x ∧
      Reorder size accepted (next + 1) top (update seen (next % size) none) := by
  obtain ⟨k, hle, htop, hlt, hslot, hget⟩ := h.held _ x hx
  have hk : k = next := eq_of_slot hle hlt hslot
  subst hk
  refine ⟨hget, by omega, fun slot y hy => ?_⟩
  by_cases hsame : slot = k % size
  · rw [hsame, update_self] at hy
    cases hy
  · rw [update_of_ne hsame] at hy
    obtain ⟨k', hle', htop', hlt', hslot', hget'⟩ := h.held slot y hy
    have hne : k' ≠ k := fun heq => hsame (heq ▸ hslot')
    exact ⟨k', by omega, htop', by omega, hslot', hget'⟩

end Reorder

end ReliableLink
