import Garnet.Packet.Buffer
import Mathlib.Order.Basic

/-! What the takes of a view do to the three parts of the buffer: the zeroing ones against the plain
ones, and parsing packets against undoing it. -/

namespace Garnet.Packet
open BufView

namespace BufView
variable {v v' : BufView} {r : Region} {n : Nat}

theorem lo_add_len (v : BufView) : v.lo + v.len = v.hi := by
  have hord := v.buf.ordered
  rw [← v.front, ← v.back] at hord
  exact Nat.add_sub_cancel' hord

theorem takeFront_of_le (hn : n ≤ v.len) : ∃ v', v.takeFront n = some ((v.lo, v.lo + n), v') ∧
    v'.buf.bytes = v.buf.bytes ∧ v'.buf.start = v.buf.start + n ∧ v'.buf.stop = v.buf.stop :=
  ⟨_, dif_neg (Nat.not_lt_of_le hn), rfl, rfl, rfl⟩

theorem takeBack_of_le (hn : n ≤ v.len) : ∃ v', v.takeBack n = some ((v.hi - n, v.hi), v') ∧
    v'.buf.bytes = v.buf.bytes ∧ v'.buf.start = v.buf.start ∧ v'.buf.stop = v.buf.stop - n :=
  ⟨_, dif_neg (Nat.not_lt_of_le hn), rfl, rfl, rfl⟩

theorem takeFront_region (h : v.takeFront n = some (r, v')) : r.2 - r.1 = n := by
  unfold takeFront at h
  split at h
  · cases h
  · cases h
    exact Nat.add_sub_cancel_left ..

theorem takeBack_region (h : v.takeBack n = some (r, v')) : r.2 - r.1 = n := by
  unfold takeBack at h
  split at h
  · cases h
  next hle =>
    cases h
    have hlo := v.lo_add_len
    exact Nat.sub_sub_self (by omega)

end BufView

section Zeroing

/-- An operation of a view that has a zeroing version. -/
inductive Take where
  | front (n : Nat)
  | back (n : Nat)
  | restFront
  | restBack
  | objFront (size : Nat)
  | objBack (size : Nat)
  deriving Repr, DecidableEq

def Take.plain (v : BufView) : Take → Except Fault (Option (Region × BufView))
  | front n => .ok (v.takeFront n)
  | back n => .ok (v.takeBack n)
  | restFront => do pure (some (← v.takeRestFront))
  | restBack => do pure (some (← v.takeRestBack))
  | objFront size => v.takeObjFront size
  | objBack size => v.takeObjBack size

def Take.zeroing (v : BufView) : Take → Except Fault (Option (Region × BufView))
  | front n => .ok (v.takeFrontZero n)
  | back n => .ok (v.takeBackZero n)
  | restFront => do pure (some (← v.takeRestFrontZero))
  | restBack => do pure (some (← v.takeRestBackZero))
  | objFront size => v.takeObjFrontZero size
  | objBack size => v.takeObjBackZero size

/-- Both refuse; or both hand out the same region and leave the same prefix, body and suffix, and
the second has zeroed the region and changed nothing else. -/
def Zeroes (v : BufView) (plain zeroing : Except Fault (Option (Region × BufView))) : Prop :=
  (plain = .ok none ∧ zeroing = .ok none) ∨
  ∃ r v₁ v₂, plain = .ok (some (r, v₁)) ∧ zeroing = .ok (some (r, v₂)) ∧
    v₂.buf.start = v₁.buf.start ∧ v₂.buf.stop = v₁.buf.stop ∧ v₁.buf.bytes = v.buf.bytes ∧
    ∀ i, v₂.buf.bytes[i]? = if r.1 ≤ i ∧ i < r.2 then v.buf.bytes[i]?.map (fun _ => 0) else v.buf.bytes[i]?

variable {v v' : BufView} {r : Region}

theorem zeroes_zeroed (hbytes : v'.buf.bytes = v.buf.bytes) :
    Zeroes v (.ok (some (r, v'))) (.ok (some (zeroed (r, v')))) := by
  refine .inr ⟨r, v', _, rfl, rfl, rfl, rfl, hbytes, fun i => ?_⟩
  simp only [Buf.zero, List.getElem?_mapIdx, hbytes]
  split <;> simp

theorem zeroes_front (n : Nat) : Zeroes v (.ok (v.takeFront n)) (.ok (v.takeFrontZero n)) := by
  rcases Nat.lt_or_ge v.len n with hlt | hge
  · have hnone : v.takeFront n = none := dif_pos hlt
    exact .inl ⟨congrArg _ hnone, by rw [takeFrontZero, hnone]; rfl⟩
  · obtain ⟨v', htake, hbytes, -⟩ := takeFront_of_le hge
    rw [takeFrontZero, htake]
    exact zeroes_zeroed hbytes

theorem zeroes_back (n : Nat) : Zeroes v (.ok (v.takeBack n)) (.ok (v.takeBackZero n)) := by
  rcases Nat.lt_or_ge v.len n with hlt | hge
  · have hnone : v.takeBack n = none := dif_pos hlt
    exact .inl ⟨congrArg _ hnone, by rw [takeBackZero, hnone]; rfl⟩
  · obtain ⟨v', htake, hbytes, -⟩ := takeBack_of_le hge
    rw [takeBackZero, htake]
    exact zeroes_zeroed hbytes

/-- Reading an object from a region of its size never fails. -/
theorem zeroes_object {size : Nat} {taken : Option (Region × BufView)}
    (hsize : ∀ r v', taken = some (r, v') → r.2 - r.1 = size)
    (h : Zeroes v (.ok taken) (.ok (taken.map zeroed))) :
    Zeroes v (object size taken) (objectZeroed size taken) := by
  cases taken with
  | none => exact .inl ⟨rfl, rfl⟩
  | some rv =>
    have hnew : newUnaligned size rv.1 = some rv.1 := if_pos (hsize rv.1 rv.2 rfl)
    simp only [object, objectZeroed, hnew, expect, ok_bind, except_pure]
    exact h

theorem zeroes_restBack_iff :
    Zeroes v (Take.restBack.plain v) (Take.restBack.zeroing v) ↔ v.len = 0 := by
  obtain ⟨v₁, hback, hbytes, hstart, hstop⟩ := takeBack_of_le (Nat.le_refl v.len)
  obtain ⟨v₂, hfront, hbytes₂, hstart₂, hstop₂⟩ := takeFront_of_le (Nat.le_refl v.len)
  have hplain : Take.restBack.plain v = .ok (some ((v.hi - v.len, v.hi), v₁)) := by
    simp only [Take.plain, takeRestBack, hback, expect, ok_bind, except_pure]
  have hzeroing : Take.restBack.zeroing v = .ok (some (zeroed ((v.lo, v.lo + v.len), v₂))) := by
    simp only [Take.zeroing, takeRestBackZero, takeFrontZero, hfront, Option.map_some, expect,
      ok_bind, except_pure]
  rw [hplain, hzeroing]
  constructor
  · -- the bytes went to the prefix, so its length tells whether there were any
    rintro (⟨h, -⟩ | ⟨r, w₁, w₂, h₁, h₂, hs, -⟩)
    · cases h
    · obtain rfl : v₁ = w₁ := congrArg Prod.snd (Option.some.inj (Except.ok.inj h₁))
      obtain rfl : _ = w₂ := congrArg Prod.snd (Option.some.inj (Except.ok.inj h₂))
      have hs : v₂.buf.start = v₁.buf.start := hs
      omega
  · intro h0
    have hlo := v.lo_add_len
    have hview : v₁ = v₂ := by
      refine BufView.ext (Buf.ext (hbytes.trans hbytes₂.symm) (by omega) (by omega)) ?_ ?_
      · rw [v₁.front, v₂.front]
        omega
      · rw [v₁.back, v₂.back]
        omega
    have hregion : v.hi - v.len = v.lo := by omega
    rw [hview, hlo, hregion]
    exact zeroes_zeroed hbytes₂

/-- A zeroing operation refines the plain one, except that `take_rest_back_zero` takes from the
front. -/
theorem zeroing_refines_iff (v : BufView) (op : Take) :
    Zeroes v (op.plain v) (op.zeroing v) ↔ (op = .restBack → v.len = 0) := by
  have hrest : Zeroes v (Take.restFront.plain v) (Take.restFront.zeroing v) := by
    obtain ⟨v', htake, hbytes, -⟩ := takeFront_of_le (Nat.le_refl v.len)
    simp only [Take.plain, Take.zeroing, takeRestFront, takeRestFrontZero, takeFrontZero, htake,
      Option.map_some, expect, ok_bind, except_pure]
    exact zeroes_zeroed hbytes
  cases op with
  | front n => exact iff_of_true (zeroes_front n) nofun
  | back n => exact iff_of_true (zeroes_back n) nofun
  | restFront => exact iff_of_true hrest nofun
  | restBack => exact zeroes_restBack_iff.trans ⟨fun h _ => h, fun h => h rfl⟩
  | objFront size =>
    exact iff_of_true (zeroes_object (fun _ _ => takeFront_region) (zeroes_front size)) nofun
  | objBack size =>
    exact iff_of_true (zeroes_object (fun _ _ => takeBack_region) (zeroes_back size)) nofun

def twoBytes : Buf := ⟨[1, 2], 0, 2, by decide, by decide⟩

/-- The bytes end up in the prefix instead of the suffix. -/
theorem restBack_zeroed_into_prefix :
    ∃ r v₁ v₂, Take.restBack.plain twoBytes.bufferView = .ok (some (r, v₁)) ∧
    Take.restBack.zeroing twoBytes.bufferView = .ok (some (r, v₂)) ∧
    v₁.buf.prefixLen = 0 ∧ v₁.buf.suffixLen = 2 ∧ v₂.buf.prefixLen = 2 ∧ v₂.buf.suffixLen = 0 :=
  ⟨(0, 2), _, _, rfl, rfl, rfl, rfl, rfl, rfl⟩

end Zeroing

end Garnet.Packet
