import Garnet.Inspect.View

/-! What each function of the state does to the roles of the blocks. -/

namespace Garnet.Inspect
open Function (update update_eq_self update_idem update_of_ne update_self)
open Heap (block_bind freeBlock onBlock)

/-- The generation count after `increment_generation_count`. -/
def tick (g : Nat) : Nat := (g + 1) % 2 ^ 64

namespace Role

def gain : Role → Option Role
  | header g => some (header g)
  | node n p c => some (node n p (c + 1))
  | tombstone c => some (tombstone (c + 1))
  | _ => none

def lose : Role → Option Role
  | header g => some (header g)
  | node n p c => some (node n p (c - 1))
  | tombstone (c + 2) => some (tombstone (c + 1))
  | _ => none

def grave : Role → Option Role
  | node _ _ (c + 1) => some (tombstone (c + 1))
  | _ => none

end Role

namespace Roles

def withGeneration (R : Roles) (g : Nat) : Roles := update R 0 (some (0, .header g))

/-- The block at `i` changes its role, or goes. -/
def change (R : Roles) (i : Nat) (f : Role → Option Role) : Roles :=
  update R i ((R i).bind fun kb => (f kb.2).map (kb.1, ·))

variable {R : Roles} {i : Nat}

theorem change_eq {k : Nat} {b : Role} (h : R i = some (k, b)) (f : Role → Option Role) :
    R.change i f = update R i ((f b).map (k, ·)) := by
  simp [change, h]

theorem change_self (R : Roles) (i : Nat) (f : Role → Option Role) :
    R.change i f i = (R i).bind fun kb => (f kb.2).map (kb.1, ·) := update_self ..

theorem change_of_ne {j : Nat} (h : j ≠ i) (f : Role → Option Role) : R.change i f j = R j := by
  simp [change, h]

def Adopts (R : Roles) (p : Nat) : Prop := ∃ k b, R p = some (k, b) ∧ b.gain ≠ none

def reserve (R : Roles) (i k n l : Nat) (text : List UInt8) : Roles :=
  update (update R i (some (k, .reserved))) n (some (l, .name text))

theorem restore (hi : R i = none) (v : Option (Nat × Role)) : update (update R i v) i none = R := by
  rw [update_idem, ← hi, update_eq_self]

end Roles

def Known (m : Mapping) (R : Roles) (F : Lists) (p : Nat) : Prop :=
  R p ≠ none ∨ (∃ k, p ∈ F k) ∨ m.len ≤ 16 * p

theorem Known.allocated {m : Mapping} {R : Roles} {F F' : Lists} {h h' : Heap} {i k p : Nat}
    (hp : Known m R F p) (hal : Heap.Allocated h R.orders F k i h' F')
    (b : Role) : Known m (update R i (some (k, b))) F' p := by
  by_cases hpi : p = i
  · subst p
    exact .inl (by simp)
  · rcases hp with hp | ⟨l, hl⟩ | hp
    · exact .inl (by rwa [update_of_ne hpi])
    · exact .inr (.inl ((hal.starts p l hl).resolve_left hpi))
    · exact .inr (.inr hp)

/-- The sizes that an `Inspector` gives to a mapping, up to the largest that indices of 28 bits
can address. -/
structure Addressable (m : Mapping) : Prop where
  pos : 0 < m.len
  page : pageSizeBytes ∣ m.len
  max : m.len ≤ 2 ^ 32

namespace State
variable {m : Mapping} {h h' : Heap} {R : Roles} {F : Lists} {i j k l n p g : Nat} {b : Role}

section Lock
variable {α : Type} {code : HeapM α}

theorem attempt_ok {a : α} (hc : code h = .ok a h') : attempt code h = .ok (.ok a) h' := by
  simp only [attempt, hc]

theorem attempt_error {msg : String} (hc : code h = .error (.error msg) h') :
    attempt code h = .ok (.error (.error msg)) h' := by
  simp only [attempt, hc]

theorem tick_odd (hg : g % 2 = 0) : tick g % 2 = 1 := by
  simp only [tick]
  omega

theorem tick_even (hg : g % 2 = 1) : tick g % 2 = 0 := by
  simp only [tick]
  omega

theorem withHeaderLock_run (V : View m h R F) (h0 : R 0 = some (0, .header g)) (hg : g % 2 = 0) :
    ∃ h1, onBlock (Block.lockHeader · headerIndex) h = .ok () h1 ∧
      View m h1 (R.withGeneration (tick g)) F ∧
      ∀ {h2 R2 F2}, View m h2 R2 F2 → R2 0 = some (0, .header (tick g)) →
        ∃ h3, View m h3 (R2.withGeneration (tick (tick g))) F2 ∧
          (∀ {α : Type} {code : HeapM α} {a}, code h1 = .ok a h2 →
            withHeaderLock code h = .ok a h3) ∧
          ∀ {α : Type} {code : HeapM α} {msg}, code h1 = .error (.error msg) h2 →
            withHeaderLock code h = .error (.error msg) h3 := by
  obtain ⟨h1, hlock, V1, -⟩ := V.lockHeader h0 hg
  refine ⟨h1, hlock, V1, fun V2 h2z => ?_⟩
  obtain ⟨h3, hunlock, V3, -⟩ := V2.unlockHeader h2z (tick_odd hg)
  refine ⟨h3, V3, fun hcode => ?_, fun hcode => ?_⟩
  · rw [withHeaderLock, bind_ok hlock, bind_ok (attempt_ok hcode), bind_ok hunlock]
    rfl
  · rw [withHeaderLock, bind_ok hlock, bind_ok (attempt_error hcode), bind_ok hunlock]
    rfl

end Lock

section Reserve

theorem grows (V : View m h R F) (hm : Addressable m) :
    min h.mapping.len (h.currentSizeBytes * 2) ≤ 2 ^ 32 :=
  (min_le_left ..).trans (V.len ▸ hm.max)

theorem getBlock_bind {β : Type} (i : Nat) (f : Nat → HeapM β) (h : Heap) :
    (getBlock i >>= f) h = match Heap.getBlock h i with
      | .ok a => f a h
      | .error e => .error e h := by
  simp only [getBlock, reading_bind, id]
  cases Heap.getBlock h i <;> rfl

section
variable (V : View m h R F)
include V

theorem View.getBlock_bind {β : Type} (hi : R i = some (k, b)) (f : Nat → HeapM β) :
    (State.getBlock i >>= f) h = f i h := by
  simp only [State.getBlock_bind, V.getBlock hi]

theorem adopt_ok (hp : R.Adopts p)
    (hc : ∀ k b c, R p = some (k, b) → b.count = some c → c + 1 < 2 ^ 64) :
    ∃ h', adopt p h = .ok () h' ∧ View m h' (R.change p Role.gain) F := by
  obtain ⟨k, b, hp, hb⟩ := hp
  rw [Roles.change_eq hp]
  simp only [adopt, getBlock_bind, V.getBlock hp, block_bind, (V.holds hp).blockType]
  have hcount : ∀ {c R'}, b.count = some c → update R p (some (k, b.withCount (c + 1))) = R' →
      ∃ h', (Heap.block (fun m => unwrap (Block.childCount m p)) >>= fun count =>
        onBlock (Block.setChildCount · p (count + 1))) h = .ok () h' ∧ View m h' R' F := by
    intro c R' hb he
    obtain ⟨h', hrun, V', -⟩ := V.setChildCount hp hb (hc k b c hp hb)
    refine ⟨h', ?_, he ▸ V'⟩
    simp only [block_bind, V.childCount hp hb, unwrap_ok]
    exact hrun
  cases b with
  | header g =>
    refine ⟨h, rfl, ?_⟩
    rwa [Role.gain, Option.map_some, ← hp, update_eq_self]
  | node a q c | tombstone c => exact hcount rfl rfl
  | _ => exact absurd rfl hb

theorem known_block (hp : Known m R F p) :
    Heap.getBlock h p = .error (.error "invalid index") ∨
    ∃ t, Heap.getBlock h p = .ok p ∧ Block.blockType h.mapping p = .ok t ∧
      (t = .free ∨ ∃ k b, R p = some (k, b) ∧ t = b.type) := by
  cases hRp : R p with
  | none =>
    rcases hp with hp | ⟨k, hk⟩ | hp
    · exact absurd hRp hp
    · have hs : Starts R.orders F p k := .inr hk
      exact .inr ⟨.free, Heap.getBlock_ok V.inv.layout hs,
        Heap.blockType_ok V.inv.layout hs (V.inv.layout.free_type hk), .inl rfl⟩
    · have hle := V.inv.layout.size_le
      rw [V.len] at hle
      refine .inl ?_
      simp only [Heap.getBlock, offsetForIndex_eq, if_pos (hle.trans hp)]
  | some kb => exact .inr ⟨kb.2.type, V.getBlock hRp, (V.holds hRp).blockType, .inr ⟨_, _, rfl, rfl⟩⟩

theorem adopt_err (hR : ¬ R.Adopts p) (hp : Known m R F p) :
    ∃ msg, adopt p h = .error (.error msg) h := by
  rcases known_block V hp with hget | ⟨t, hget, htype, rfl | ⟨k, b, hRp, rfl⟩⟩
  · simp only [adopt, getBlock_bind, hget]
    exact ⟨_, rfl⟩
  · simp only [adopt, getBlock_bind, hget, block_bind, htype]
    exact ⟨_, rfl⟩
  · simp only [adopt, getBlock_bind, hget, block_bind, htype]
    cases b with
    | header g | node a q c | tombstone c => exact absurd ⟨k, _, hRp, by simp [Role.gain]⟩ hR
    | number t a q c => cases t <;> exact ⟨_, rfl⟩
    | _ => exact ⟨_, rfl⟩

end

theorem blockSize_bounds (n : Nat) : 16 ≤ blockSizeForPayload n ∧ blockSizeForPayload n ≤ 2048 := by
  simp only [blockSizeForPayload, maxOrderSize, minOrderSize, headerSizeBytes]
  omega

theorem take_name {name : List UInt8} (hl : l < 8)
    (hle : blockSizeForPayload (name.take 2040).length ≤ 16 * 2 ^ l) :
    name.take (payloadSizeForOrder l) = name.take 2040 := by
  have hp : 2 ^ l ≤ 2 ^ 7 := Nat.pow_le_pow_right (by decide) (Nat.le_of_lt_succ hl)
  simp only [blockSizeForPayload, maxOrderSize, minOrderSize, headerSizeBytes,
    List.length_take] at hle
  rw [payloadSizeForOrder_eq]
  rcases lt_or_ge name.length 2040 with hlt | hge
  · rw [List.take_of_length_le (by omega), List.take_of_length_le (by omega)]
  · congr 1
    omega

theorem allocateReservedValue_cases (V : View m h R F) (hpage : pageSizeBytes ∣ m.len)
    (hmax : min m.len (h.currentSizeBytes * 4) ≤ 2 ^ 32) (hp : Known m R F p)
    (hc : ∀ j k b c, R j = some (k, b) → b.count = some c → c + 1 < 2 ^ 64) {size : Nat}
    (h16 : 16 ≤ size) (hsize : size ≤ 2048) (name : List UInt8) :
    (∃ i n k l h' F', allocateReservedValue name p size h = .ok (i, n) h' ∧ R i = none ∧
      R n = none ∧ n ≠ i ∧ fitOrder size = .ok k ∧ size ≤ 16 * 2 ^ k ∧ R.Adopts p ∧
      View m h' ((R.reserve i k n l (name.take 2040)).change p Role.gain) F') ∨
    (∃ msg h' F', allocateReservedValue name p size h = .error (.error msg) h' ∧
      View m h' R F') := by
  have hlen := V.len
  rcases V.allocate hpage (by omega) h16 hsize with
    ⟨i, h1, F1, k, hrun1, hi, hk, hle, V1, hal1, -⟩ | ⟨msg, hrun1, -⟩
  swap
  · exact .inr ⟨msg, h, F, by rw [allocateReservedValue, bind_error hrun1], V⟩
  have hbs := blockSize_bounds (name.take 2040).length
  have hi1 : update R i (some (k, .reserved)) i = some (k, .reserved) := update_self ..
  have hlen1 := V1.len
  have hgrown := hal1.grown
  rcases V1.allocate hpage (by omega) hbs.1 hbs.2 with
    ⟨n, h2, F2, l, hrun2, hn, hl, hle2, V2, hal2, -⟩ | ⟨msg, hrun2, -⟩
  swap
  · obtain ⟨h2, F2, hfree, V2, -⟩ := V1.free hi1
    refine .inr ⟨msg, h2, F2, ?_, Roles.restore hi _ ▸ V2⟩
    rw [allocateReservedValue, bind_ok hrun1]
    exact (bind_ok (attempt_error hrun2) _).trans (bind_ok hfree _)
  have hni : n ≠ i := (ne_of_none hn hi1).symm
  have hRn : R n = none := by rwa [update_of_ne hni] at hn
  have hn2 := update_self n (some (l, Role.reserved)) (update R i (some (k, .reserved)))
  obtain ⟨h3, hrun3, V3, -⟩ := V2.becomeName hn2 name
  rw [take_name (V2.order_lt hn2) hle2, update_idem] at V3
  rw [allocateReservedValue, bind_ok hrun1]
  have hpar : ∀ {q c}, R.reserve i k n l (name.take 2040) p = some (q, c) → c.gain ≠ none →
      R p = some (q, c) := by
    intro q c hq hb
    rcases update_eq_some.mp hq with ⟨-, hc⟩ | ⟨-, hq⟩
    · cases hc
      exact absurd rfl hb
    · rcases update_eq_some.mp hq with ⟨-, hc⟩ | ⟨-, hq⟩
      · cases hc
        exact absurd rfl hb
      · exact hq
  by_cases hR : (R.reserve i k n l (name.take 2040)).Adopts p
  · obtain ⟨q, b, hq, hb⟩ := hR
    have hcount : ∀ r d c, R.reserve i k n l (name.take 2040) p = some (r, d) → d.count = some c →
        c + 1 < 2 ^ 64 := by
      intro r d c hr hd
      rw [hq] at hr
      cases hr
      exact hc p q b c (hpar hq hb) hd
    obtain ⟨h4, hrun4, V4⟩ := adopt_ok V3 ⟨q, b, hq, hb⟩ hcount
    refine .inl ⟨i, n, k, l, h4, F2, ?_, hi, hRn, hni, hk, hle, ⟨q, b, hpar hq hb, hb⟩, V4⟩
    exact (bind_ok (attempt_ok hrun2) _).trans
      ((bind_ok (unwrapS_ok hrun3) _).trans (bind_ok (attempt_ok hrun4) _))
  · obtain ⟨msg, hrun4⟩ := adopt_err V3 hR ((hp.allocated hal1 _).allocated hal2 _)
    have hn3 : R.reserve i k n l (name.take 2040) n = some (l, .name (name.take 2040)) :=
      update_self ..
    obtain ⟨h5, F5, hfree5, V5, -⟩ := V3.free hn3
    rw [Roles.restore hn] at V5
    obtain ⟨h6, F6, hfree6, V6, -⟩ := V5.free hi1
    rw [Roles.restore hi] at V6
    refine .inr ⟨"Invalid parent index " ++ toString p ++ ": " ++ msg, h6, F6, ?_, V6⟩
    refine (bind_ok (attempt_ok hrun2) _).trans
      ((bind_ok (unwrapS_ok hrun3) _).trans ((bind_ok (attempt_error hrun4) _).trans ?_))
    exact (bind_ok (unwrapS_ok hfree5) _).trans (bind_ok (unwrapS_ok hfree6) _)

end Reserve

section Delete

theorem disown_ok {c : Nat} (V : View m h R F) (hp0 : p ≠ 0) (hp : R p = some (k, b))
    (hb : b.count = some (c + 1)) :
    ∃ h' F', disown p h = .ok () h' ∧ View m h' (R.change p Role.lose) F' := by
  have hc : c + 1 < 2 ^ 64 := ((V.shows hp).counts hb).2 ▸ word_lt _ _
  have hrun : disown p h = (if b.type = .tombstone ∧ c = 0 then unwrapS (freeBlock p)
      else unwrapS (onBlock (Block.setChildCount · p c)) : HeapM Unit) h := by
    simp only [disown, headerIndex, if_neg hp0, reading_bind, id, V.getBlock hp, unwrap_ok,
      block_bind, V.childCount hp hb, Heap.compute_bind, Heap.checkedSub_ok (Nat.le_add_left 1 c),
      (V.holds hp).blockType, Nat.add_sub_cancel]
  obtain ⟨h1, hset, V1, -⟩ := V.setChildCount hp hb (n := c) (by omega)
  rw [hrun, Roles.change_eq hp]
  cases b with
  | node a q d =>
    cases hb
    exact ⟨h1, F, unwrapS_ok hset, V1⟩
  | tombstone d =>
    cases hb
    cases c with
    | zero =>
      obtain ⟨h', F', hfree, V', -⟩ := V.free hp
      exact ⟨h', F', unwrapS_ok hfree, V'⟩
    | succ c => exact ⟨h1, F, unwrapS_ok hset, V1⟩
  | _ => cases hb

theorem bury_ok (V : View m h R F) (hi : R i = some (k, b)) (hb : b.refs ≠ none) :
    ∃ h' F', (hasChildren i >>= fun keep =>
      if keep then onBlock (Block.becomeTombstone · i) else freeBlock i) h = .ok () h' ∧
      View m h' (R.change i Role.grave) F' := by
  obtain ⟨h1, F1, hfree, V1, -⟩ := V.free hi
  have hgo : hasChildren i h = .ok false h → (hasChildren i >>= fun keep =>
      if keep then onBlock (Block.becomeTombstone · i) else freeBlock i) h = .ok () h1 :=
    fun hno => (bind_ok hno _).trans hfree
  have hother : b.type ≠ .nodeValue → hasChildren i h = .ok false h := by
    intro ht
    simp only [hasChildren, block_bind, (V.holds hi).blockType, if_neg ht]
    rfl
  rw [Roles.change_eq hi]
  cases b with
  | node a q c =>
    have hchildren : hasChildren i h = .ok (c != 0) h := by
      simp only [hasChildren, block_bind, (V.holds hi).blockType, Role.type, if_true,
        V.childCount hi (c := c) rfl]
      rfl
    cases c with
    | zero => exact ⟨h1, F1, hgo hchildren, V1⟩
    | succ c =>
      obtain ⟨h', hrun, V', -⟩ := V.becomeTombstone hi
      exact ⟨h', F, (bind_ok hchildren _).trans hrun, V'⟩
  | number t a q x => exact ⟨h1, F1, hgo (hother (by cases t <;> simp [Role.type, Number.type])), V1⟩
  | array t f a q s d | property f a q s e => exact ⟨h1, F1, hgo (hother (by simp [Role.type])), V1⟩
  | _ => exact absurd rfl hb

def Counted (R : Roles) (p : Nat) : Prop :=
  p = 0 ∧ (∃ k g, R 0 = some (k, .header g)) ∨
    p ≠ 0 ∧ ∃ k b c, R p = some (k, b) ∧ b.count = some (c + 1)

/-- The roles after `delete_value`. -/
def deleted (R : Roles) (i n p : Nat) : Roles :=
  Roles.change (update (R.change p Role.lose) n none) i Role.grave

theorem deleteValue_ok {text : List UInt8} (V : View m h R F) (hi : R i = some (k, b))
    (hb : b.refs = some (n, p)) (hn : R n = some (l, .name text)) (hp : Counted R p) (hpi : p ≠ i) :
    ∃ h' F', deleteValue i h = .ok () h' ∧ View m h' (deleted R i n p) F' := by
  have hni : n ≠ i := by
    rintro rfl
    rw [hn] at hi
    cases hi
    cases hb
  have hnp : n ≠ p := by
    rintro rfl
    rcases hp with ⟨rfl, _, _, h0⟩ | ⟨-, _, _, _, h1, h2⟩
    · rw [hn] at h0
      cases h0
    · rw [hn] at h1
      cases h1
      cases h2
  have hdis : ∃ h1 F1, disown p h = .ok () h1 ∧ View m h1 (R.change p Role.lose) F1 := by
    rcases hp with ⟨rfl, _, _, h0⟩ | ⟨hp0, _, _, _, h1, h2⟩
    · refine ⟨h, F, rfl, ?_⟩
      rwa [Roles.change_eq h0, Role.lose, Option.map_some, ← h0, update_eq_self]
    · exact disown_ok V hp0 h1 h2
  obtain ⟨h1, F1, hrun1, V1⟩ := hdis
  have hi1 : R.change p Role.lose i = some (k, b) := (Roles.change_of_ne hpi.symm _).trans hi
  have hn1 : R.change p Role.lose n = some (l, .name text) := (Roles.change_of_ne hnp _).trans hn
  obtain ⟨h2, F2, hrun2, V2, -⟩ := V1.free hn1
  have hi2 : update (R.change p Role.lose) n none i = some (k, b) := by
    rw [update_of_ne hni.symm, hi1]
  obtain ⟨h3, F3, hrun3, V3⟩ := bury_ok V2 hi2 (by rw [hb]; simp)
  refine ⟨h3, F3, ?_, V3⟩
  simp only [deleteValue, block_bind, (V.holds hi).parentIndex hb]
  rw [bind_ok hrun1]
  simp only [block_bind, (V1.holds hi1).nameIndex hb, reading_bind, id, V1.getBlock hn1, unwrap_ok]
  rw [bind_ok (unwrapS_ok hrun2)]
  exact hrun3

end Delete

end State

end Garnet.Inspect
