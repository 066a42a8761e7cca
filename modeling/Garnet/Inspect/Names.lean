import Garnet.Inspect.PropertyRuns

/-! The names of values. A name is cut behind 2040 bytes, which may be inside a character, and a
block with half a character cannot be read as a name. -/

namespace Garnet.Inspect
open List

def Call.Creates (name : List UInt8) : Call → Prop
  | createNode n _ | createMetric _ n _ _ | createArray _ n _ _ _ | createProperty n _ _ _ => n = name
  | _ => False

section Names
variable {m : Mapping} {a : State.Arith} {h h' : Heap} {R : Roles} {F : Lists} {ts : List Nat}
variable {vs : List Value} {items : List Item} {c : Call} {name : List UInt8} {r : Nat}

theorem Call.Creates.effect (hc : c.Creates name) (a : State.Arith) (r : Nat) (h' : Heap)
    (items : List Item) :
    ∃ p content, c.effect a r h' items = ⟨r, p, name.take 2040, content⟩ :: items := by
  cases c
  case createNode | createMetric | createArray | createProperty =>
    obtain rfl := hc
    exact ⟨_, _, rfl⟩
  all_goals exact hc.elim

theorem StateInv.nameContents (I : StateInv m h R F ts vs) {v : Value} (hv : v ∈ vs) :
    ∃ n, Block.nameIndex h.mapping v.index = .ok n ∧ Block.nameContents h.mapping n =
      if Utf8.valid v.name then .ok v.name else .error .panic := by
  obtain ⟨k, b, hb, hrefs⟩ := (I.owns.stored v hv).role
  obtain ⟨l, hn⟩ := I.owns.named v hv
  exact ⟨v.nameIndex, (I.view.holds hb).nameIndex hrefs, (I.view.holds hn).nameContents⟩

theorem Run.created_name (hm : Addressable m) (hr : Run a (sparing m) h items)
    (hl : c.Legal h items) (hc : c.Creates name) (hx : c.exec a h = .ok r h') :
    ∃ n, Block.nameIndex h'.mapping r = .ok n ∧ Block.nameContents h'.mapping n =
      if Utf8.valid (name.take 2040) then .ok (name.take 2040) else .error .panic := by
  obtain ⟨R, F, ts, vs, I, hp⟩ := (hr.holds_sparing hm).call hm hl hx
  obtain ⟨p, content, heffect⟩ := hc.effect a r h' items
  rw [heffect] at hp
  obtain ⟨v, hv, hitem⟩ := mem_map.mp (hp.mem_iff.mpr mem_cons_self)
  obtain ⟨n, hindex, hcontents⟩ := I.nameContents hv
  have hr : v.index = r := congrArg Item.index hitem
  have hname : v.name = name.take 2040 := congrArg Item.name hitem
  rw [hr] at hindex
  rw [hname] at hcontents
  exact ⟨n, hindex, hcontents⟩

/-- The name of a new value can be read back, up to 2040 bytes of it, exactly when the cut is not
inside a character. -/
theorem name_survives_iff (hm : Addressable m) (hr : Run a (sparing m) h items)
    (hl : c.Legal h items) (hc : c.Creates name) (hname : Utf8.valid name = true)
    (hx : c.exec a h = .ok r h') :
    ∃ n, Block.nameIndex h'.mapping r = .ok n ∧
      ((∃ text, Block.nameContents h'.mapping n = .ok text ∧ text <+: name ∧
        (name.length ≤ 2040 → text = name)) ↔
        name.length ≤ 2040 ∨ Utf8.isCharBoundary name 2040 = true) := by
  obtain ⟨n, hindex, hcontents⟩ := hr.created_name hm hl hc hx
  refine ⟨n, hindex, ?_⟩
  have hvalid : Utf8.valid (name.take 2040) = true ↔
      name.length ≤ 2040 ∨ Utf8.isCharBoundary name 2040 = true := by
    rcases lt_or_ge 2040 name.length with hlong | hshort
    · rw [Utf8.valid_take_iff hname (le_of_lt hlong)]
      exact (or_iff_right (Nat.not_le_of_lt hlong)).symm
    · rw [take_of_length_le hshort]
      exact iff_of_true hname (.inl hshort)
  rw [← hvalid, hcontents]
  constructor
  · rintro ⟨text, htext, -⟩
    by_contra hno
    rw [if_neg hno] at htext
    cases htext
  · intro hyes
    exact ⟨_, if_pos hyes, take_prefix 2040 name, take_of_length_le⟩

end Names

section Cut

/-- A name whose last character, of two bytes, starts at byte 2039. -/
def cutName : List UInt8 := List.replicate 2039 97 ++ [0xC3, 0xA9]

theorem valid_cutName : Utf8.valid cutName = true := by
  refine Utf8.valid_append (Utf8.valid_of_ascii fun b hb => ?_) (by decide)
  rw [eq_of_mem_replicate hb]
  decide

theorem created_on_page (name : List UInt8) (hrun : (onPage []).any (fun s =>
      match (Call.createNode name 0).exec keepLeft s.1 with
      | .ok _ _ => decide ((Call.createNode name 0).Legal s.1 s.2)
      | .error _ _ => false) = true) :
    ∃ h items r h', Run keepLeft (sparing onePage) h items ∧
      (Call.createNode name 0).Legal h items ∧
      (Call.createNode name 0).exec keepLeft h = .ok r h' := by
  obtain ⟨s, hs, htest⟩ := (Option.any_eq_true _ _).mp hrun
  split at htest
  next r h' hx => exact ⟨s.1, s.2, r, h', onPage_run hs, of_decide_eq_true htest, hx⟩
  next => cases htest

theorem name_survives_short : ∃ h items r h' n, Run keepLeft (sparing onePage) h items ∧
    (Call.createNode [110, 0xC3, 0xA9] 0).exec keepLeft h = .ok r h' ∧
    Block.nameIndex h'.mapping r = .ok n ∧
    Block.nameContents h'.mapping n = .ok [110, 0xC3, 0xA9] := by
  obtain ⟨h, items, r, h', hr, hl, hx⟩ := created_on_page [110, 0xC3, 0xA9] (by decide +kernel)
  obtain ⟨n, hindex, hiff⟩ := name_survives_iff (m := onePage) ⟨by decide, by decide, by decide⟩ hr hl
    rfl (by decide) hx
  obtain ⟨text, htext, -, hwhole⟩ := hiff.mpr (.inl (by decide))
  rw [hwhole (by decide)] at htext
  exact ⟨h, items, r, h', n, hr, hx, hindex, htext⟩

/-- The node is created and its name cannot be read. -/
theorem cut_name_panics : Utf8.valid cutName = true ∧
    ∃ h items r h' n, Run keepLeft (sparing onePage) h items ∧
      (Call.createNode cutName 0).Legal h items ∧
      (Call.createNode cutName 0).exec keepLeft h = .ok r h' ∧
        Block.nameIndex h'.mapping r = .ok n ∧
      Block.nameContents h'.mapping n = .error .panic := by
  obtain ⟨h, items, r, h', hr, hl, hx⟩ := created_on_page cutName (by decide +kernel)
  obtain ⟨n, hindex, hcontents⟩ :=
    hr.created_name (m := onePage) ⟨by decide, by decide, by decide⟩ hl rfl hx
  have hcut : ¬ Utf8.valid (cutName.take 2040) = true := by
    rw [Utf8.valid_take_iff valid_cutName (by decide +kernel)]
    decide +kernel
  rw [if_neg hcut] at hcontents
  exact ⟨valid_cutName, h, items, r, h', n, hr, hl, hx, hindex, hcontents⟩

end Cut

end Garnet.Inspect
