import Garnet.Thinfs.ArcInvariant

/-! What a caller of the cache sees. Over a backing store that keeps what is put into it, the cache
and the store together hold one value for each key, whatever the cache has room for. -/

namespace Garnet.Arc
variable {κ ν σ ε : Type} [DecidableEq κ]

/-- A backing store that keeps good values for the keys of its domain and never panics on them. -/
structure Faithful (store : BackingStore κ ν σ ε) (sound : σ → Prop) (dom : κ → Prop)
    (good : ν → Prop)
    (look : σ → κ → ν) : Prop where
  get : ∀ s k, sound s → dom k →
    ∃ s', store.get k s = .ok (some (look s k)) s' ∧ sound s' ∧ ∀ j, dom j → look s' j = look s j
  put : ∀ s k v, sound s → dom k → good v →
    ∃ s', store.put k (some v) s = .ok () s' ∧ sound s' ∧
      ∀ j, dom j → look s' j = if j = k then v else look s j
  good : ∀ s k, sound s → dom k → good (look s k)

/-- An entry, or the lack of one, and what is stored agree with the value that a key has. -/
def Agrees (held : Option (Option ν × Bool)) (stored v : ν) : Prop :=
  match held with
  | some (some w, dirty) => w = v ∧ (dirty = false → stored = v)
  | some (none, dirty) => dirty = false ∧ stored = v
  | none => stored = v

section View
variable {store : BackingStore κ ν σ ε} {sound : σ → Prop} {dom : κ → Prop} {good : ν → Prop}
  {look : σ → κ → ν}
variable {m : κ → ν} {c c' : C κ ν σ} {k : κ} {e : Entry κ ν} {r : Option ν × Bool} {v : ν}

/-- The cache and the store together hold the values `m`. -/
structure Tracks (sound : σ → Prop) (dom : κ → Prop) (good : ν → Prop) (look : σ → κ → ν)
    (m : κ → ν) (c : C κ ν σ) :
    Prop where
  sound : sound c.bs
  keys : ∀ k, c.holding k ≠ none → dom k
  agrees : ∀ k, dom k → Agrees (c.holding k) (look c.bs k) (m k)
  good : ∀ k, dom k → good (m k)

theorem holding_of_lookup (he : c.entries.lookup k = some e) :
    c.holding k = some (e.value, e.isDirty) := by
  rw [C.holding, he, Option.map_some]

theorem Tracks.committed (hf : Faithful store sound dom good look)
    (h : Tracks sound dom good look m c) (he : c.entries.lookup k = some e) :
    (∃ s', Committed store c.bs k e s') ∧
      ∀ s', Committed store c.bs k e s' → sound s' ∧ look s' k = m k ∧
        ∀ j, dom j → j ≠ k → look s' j = look c.bs j := by
  have hheld := holding_of_lookup he
  have hdom : dom k := h.keys k (by rw [hheld]; exact Option.some_ne_none _)
  have hagrees := h.agrees k hdom
  rw [hheld] at hagrees
  rcases hd : e.isDirty with _ | _
  · have hstored : look c.bs k = m k := by
      rw [hd] at hagrees
      cases hv : e.value with
      | none =>
        rw [hv] at hagrees
        exact hagrees.2
      | some v =>
        rw [hv] at hagrees
        exact hagrees.2 rfl
    refine ⟨⟨c.bs, .inl ⟨hd, rfl⟩⟩, ?_⟩
    rintro s' (⟨_, rfl⟩ | ⟨hdirty, _⟩)
    · exact ⟨h.sound, hstored, fun _ _ _ => rfl⟩
    · cases hd.symm.trans hdirty
  · rw [hd] at hagrees
    cases hv : e.value with
    | none =>
      rw [hv] at hagrees
      cases hagrees.1
    | some v =>
      rw [hv] at hagrees
      obtain ⟨rfl, _⟩ := hagrees
      obtain ⟨s', hput, hsound, hlook⟩ := hf.put c.bs k (m k) h.sound hdom (h.good k hdom)
      refine ⟨⟨s', .inr ⟨hd, by rw [hv]; exact hput⟩⟩, ?_⟩
      rintro s'' (⟨hclean, _⟩ | ⟨_, hput'⟩)
      · cases hd.symm.trans hclean
      · rw [hv, hput] at hput'
        obtain ⟨_, rfl⟩ := EStateM.Result.ok.inj hput'
        refine ⟨hsound, ?_, fun j hj hne => ?_⟩
        · rw [hlook k hdom, if_pos rfl]
        · rw [hlook j hj, if_neg hne]

theorem Tracks.change (h : Tracks sound dom good look m c) {s' : σ} (hsound : sound s') (hk : dom k)
    (hstored : look s' k = m k) (hlook : ∀ j, dom j → j ≠ k → look s' j = look c.bs j)
    (hbs : c'.bs = s') (hsame : ∀ j, j ≠ k → c'.holding j = c.holding j)
    (hheld : Agrees (c'.holding k) (m k) (m k)) : Tracks sound dom good look m c' := by
  subst hbs
  refine ⟨hsound, fun j hj => ?_, fun j hj => ?_, h.good⟩
  · by_cases hjk : j = k
    · exact hjk ▸ hk
    · exact h.keys j (hsame j hjk ▸ hj)
  · by_cases hjk : j = k
    · rw [hjk, hstored]
      exact hheld
    · rw [hsame j hjk, hlook j hj hjk]
      exact h.agrees j hj

section
variable (hf : Faithful store sound dom good look)
include hf

theorem Drops.tracks (hd : Drops store k c c')
    (h : Tracks sound dom good look m c) : Tracks sound dom good look m c' := by
  have hdom {j : κ} {e : Entry κ ν} (he : c.entries.lookup j = some e) : dom j :=
    h.keys j (by rw [holding_of_lookup he]; exact Option.some_ne_none _)
  cases hd with
  | @evict j e el top bottom s' hj he hl hel hb hs =>
    obtain ⟨hsound, hstored, hlook⟩ := (h.committed hf he).2 s' hs
    refine h.change hsound (hdom he) hstored hlook rfl (fun i hi => ?_) ?_
    · rw [holding_enlist, if_neg hi]
      rfl
    · rw [holding_enlist, if_pos rfl]
      exact ⟨rfl, rfl⟩
  | @remove j e el l s' hj he hl hel hs =>
    obtain ⟨hsound, hstored, hlook⟩ := (h.committed hf he).2 s' hs
    refine h.change hsound (hdom he) hstored hlook rfl (fun i hi => ?_) ?_
    · exact congrArg (Option.map _) (AList.lookup_erase_ne hi)
    · have hnone : (((c.withStore s').unlist l el).unmap j).entries.lookup j = none :=
        AList.lookup_erase j _
      rw [C.holding, hnone]
      rfl

theorem drops_tracks (hd : Relation.ReflTransGen (Drops store k) c c')
    (h : Tracks sound dom good look m c) : Tracks sound dom good look m c' := by
  induction hd with
  | refl => exact h
  | tail _ hstep ih => exact hstep.tracks hf ih

theorem Tracks.not_stuck (h : Tracks sound dom good look m c) : ¬ Stuck store k c := by
  rintro ⟨c', j, e, hdrops, he, hno⟩
  obtain ⟨⟨s', hs⟩, _⟩ := (drops_tracks hf hdrops h).committed hf he
  exact hno s' hs

end

theorem Tracks.congr (h : Tracks sound dom good look m c) (hbs : c'.bs = c.bs)
    (hheld : ∀ j, c'.holding j = c.holding j) : Tracks sound dom good look m c' := by
  refine ⟨hbs ▸ h.sound, fun j hj => h.keys j (hheld j ▸ hj), fun j hj => ?_, h.good⟩
  rw [hheld, hbs]
  exact h.agrees j hj

theorem Served.tracks (hf : Faithful store sound dom good look) (hs : Served store k r c c')
    (h : ∀ c₁ : C κ ν σ, c₁.bs = c.bs → (∀ j, c₁.holding j = if j = k then some r else c.holding j) →
      Tracks sound dom good look m c₁) : Tracks sound dom good look m c' := by
  obtain ⟨c₁, c₂, hbs, hheld, hdrops, hbs', hheld', _⟩ := hs
  exact (drops_tracks hf hdrops (h c₁ hbs hheld)).congr hbs' hheld'

theorem Served.holding (hs : Served store k r c c') : c'.holding k = some r := by
  obtain ⟨c₁, c₂, hbs, hheld, hdrops, hbs', hheld', _⟩ := hs
  rw [hheld', C.holding, drops_lookup hdrops]
  exact (hheld k).trans (if_pos rfl)

/-- Between two calls the cache is in order and holds the values `m`. -/
structure Caches (sound : σ → Prop) (dom : κ → Prop) (good : ν → Prop) (look : σ → κ → ν)
    (m : κ → ν) (c : C κ ν σ) :
    Prop where
  invariant : Invariant c
  valued : Valued ∅ c
  tracks : Tracks sound dom good look m c

theorem getEntry_caches (hf : Faithful store sound dom good look)
    (h : Caches sound dom good look m c) (hk : dom k) :
    ∃ c' e, getEntry store k c = .ok () c' ∧ Caches sound dom good look m c' ∧
      c'.entries.lookup k = some e ∧
      e.inHistory = false ∧ e.value = some (m k) := by
  have hstart {r : Option ν × Bool} {s' : σ} (hr : Fetched store k c r s') :
      r.1 = some (m k) ∧ ∀ c₁ : C κ ν σ, c₁.bs = s' →
        (∀ j, c₁.holding j = if j = k then some r else c.holding j) →
        Tracks sound dom good look m c₁ := by
    have hagrees := h.tracks.agrees k hk
    rcases hr with ⟨e, he, hhist, rfl, rfl⟩ | ⟨hhist, hclean, hget⟩
    · -- the entry has a value, and nothing changes
      obtain ⟨v, hv⟩ := Option.ne_none_iff_exists'.mp (h.valued k e he (Set.notMem_empty k) hhist)
      have hheld := holding_of_lookup he
      rw [hheld, hv] at hagrees
      obtain ⟨rfl, _⟩ := hagrees
      refine ⟨hv, fun c₁ hbs hholding => h.tracks.congr hbs fun j => ?_⟩
      rw [hholding]
      split
      next hj => rw [hj, hheld]
      next => rfl
    · -- the value comes from the store
      have hstored : look c.bs k = m k := by
        cases he : c.entries.lookup k with
        | none =>
          rw [C.holding, he] at hagrees
          exact hagrees
        | some e =>
          rw [holding_of_lookup he,
            (h.invariant.blank k e he (Set.notMem_empty k) (hhist e he)).1] at hagrees
          exact hagrees.2
      obtain ⟨s'', hget', hsound, hlook⟩ := hf.get c.bs k h.tracks.sound hk
      rw [hget'] at hget
      obtain ⟨hval, rfl⟩ := EStateM.Result.ok.inj hget
      have hr : r = (some (m k), false) := Prod.ext (hval.symm.trans (congrArg some hstored)) hclean
      refine ⟨by rw [hr], fun c₁ hbs hholding => ?_⟩
      refine h.tracks.change hsound hk ((hlook k hk).trans hstored) (fun j hj _ => hlook j hj) hbs
        (fun j hj => ?_) ?_
      · rw [hholding, if_neg hj]
      · rw [hholding, if_pos rfl, hr]
        exact ⟨rfl, fun _ => rfl⟩
  rcases getEntry_ends store h.invariant (k := k) with
    ⟨_, ⟨err, s', hget⟩ | ⟨r, s', hr, c₁, hbs, hholding, hstuck⟩⟩ | ⟨_, c', hok, r, s', hr, hserved⟩
  · obtain ⟨s'', hget', _⟩ := hf.get c.bs k h.tracks.sound hk
    cases hget.symm.trans hget'
  · exact absurd hstuck (((hstart hr).2 c₁ hbs hholding).not_stuck hf)
  · obtain ⟨hval, htracks⟩ := hstart hr
    obtain ⟨e, he, hhist⟩ := hserved.resident
    have hne : r.1 ≠ none := by rw [hval]; exact Option.some_ne_none _
    obtain ⟨_, _, _, _, _, _, _, _, _, hvalued, _⟩ := id hserved
    refine ⟨c', e, hok, ⟨hserved.invariant, hvalued h.valued hne, hserved.tracks hf htracks⟩, he,
      hhist, ?_⟩
    have hheld := (holding_of_lookup he).symm.trans hserved.holding
    rw [← hval, ← Option.some.inj hheld]

theorem Tracks.update (h : Tracks sound dom good look m c) (hk : dom k) (hv : good v)
    (hbs : c'.bs = c.bs)
    (hheld : ∀ j, c'.holding j = if j = k then some (some v, true) else c.holding j) :
    Tracks sound dom good look (Function.update m k v) c' := by
  refine ⟨hbs ▸ h.sound, fun j hj => ?_, fun j hj => ?_, fun j hj => ?_⟩
  · by_cases hjk : j = k
    · exact hjk ▸ hk
    · rw [hheld, if_neg hjk] at hj
      exact h.keys j hj
  · by_cases hjk : j = k
    · subst hjk
      rw [hheld, if_pos rfl, Function.update_self]
      exact ⟨rfl, nofun⟩
    · rw [hheld, if_neg hjk, Function.update_of_ne hjk, hbs]
      exact h.agrees j hj
  · by_cases hjk : j = k
    · subst hjk
      rw [Function.update_self]
      exact hv
    · rw [Function.update_of_ne hjk]
      exact h.good j hj

theorem put_caches (hf : Faithful store sound dom good look) (h : Caches sound dom good look m c)
    (hk : dom k) (hv : good v) :
    ∃ c', put store k (some v) c = .ok () c' ∧
    Caches sound dom good look (Function.update m k v) c' := by
  rcases put_ends store h.invariant (k := k) (some v) with
    ⟨_, c₁, hbs, hheld, hstuck⟩ | ⟨_, c', hok, hserved⟩
  · exact absurd hstuck ((h.tracks.update hk hv hbs hheld).not_stuck hf)
  · obtain ⟨_, _, _, _, _, _, _, _, _, hvalued, _⟩ := id hserved
    exact ⟨c', hok, hserved.invariant, hvalued h.valued (Option.some_ne_none v),
      hserved.tracks hf fun c₁ hbs hheld => h.tracks.update hk hv hbs hheld⟩

theorem setValue_caches (h : Caches sound dom good look m c) (hk : dom k)
    (he : c.entries.lookup k = some e) (hhist : e.inHistory = false) (hv : good v) :
    ∃ c', (setValue k (some v) true : CacheM κ ν σ ε Unit) c = .ok () c' ∧
      Caches sound dom good look (Function.update m k v) c' := by
  obtain ⟨hok, hinv⟩ := setValue_ok (ε := ε) h.invariant he hhist (some v) true
  refine ⟨_, hok, hinv, ?_, h.tracks.update hk hv rfl fun j => holding_withEntry j⟩
  exact Each.insert (Each.only h.valued) rfl fun _ => Option.some_ne_none v

section
variable (hf : Faithful store sound dom good look)
include hf

section
variable {ks : List κ} (h : Caches sound dom good look m c)
include h

theorem flush_caches (hks : ∀ k ∈ ks, k ∈ c.entries) :
    ∃ c', flush store ks c = .ok () c' ∧ Caches sound dom good look m c' ∧
      ∀ j, dom j → j ∈ ks ∨ look c.bs j = m j → look c'.bs j = m j := by
  induction ks generalizing c with
  | nil => exact ⟨c, rfl, h, fun j _ hj => hj.resolve_left List.not_mem_nil⟩
  | cons k ks ih =>
    obtain ⟨e, he⟩ := Option.isSome_iff_exists.mp (AList.lookup_isSome.mpr (hks k List.mem_cons_self))
    have hfront : flush store (k :: ks) c = (commit store k e >>= fun _ =>
        setEntry k { e with isDirty := false } >>= fun _ => flush store ks) c :=
          bind_ok (entryOf_ok he) _
    have hheld := holding_of_lookup he
    have hk : dom k := h.tracks.keys k (by rw [hheld]; exact Option.some_ne_none _)
    obtain ⟨⟨s₀, hs₀⟩, hcommitted⟩ := h.tracks.committed hf he
    rcases commit_ends store c k e with ⟨_, hno⟩ | ⟨_, _, hok, s', hs, rfl⟩
    · exact absurd hs₀ (hno s₀)
    obtain ⟨hsound, hstored, hlook⟩ := hcommitted s' hs
    set c₁ := (c.withStore s').withEntry k { e with isDirty := false }
    have htracks : Tracks sound dom good look m c₁ := by
      refine h.tracks.change hsound hk hstored hlook rfl (fun j hj => ?_) ?_
      · rw [holding_withEntry, if_neg hj]
        rfl
      · have hagrees := h.tracks.agrees k hk
        rw [hheld] at hagrees
        rw [holding_withEntry, if_pos rfl]
        cases hv : e.value with
        | none => exact ⟨rfl, rfl⟩
        | some v =>
          rw [hv] at hagrees
          exact ⟨hagrees.1, fun _ => rfl⟩
    have hinv : Invariant c₁ := h.invariant.cleaned he s'
    have hvalued : Valued ∅ c₁ :=
      Each.insert (Each.only h.valued) rfl (h.valued k e he (Set.notMem_empty k))
    have hmem : ∀ j ∈ ks, j ∈ c₁.entries :=
      fun j hj => (AList.mem_insert _).mpr (.inr (hks j (List.mem_cons_of_mem k hj)))
    obtain ⟨c', hrest, hcaches, hlook'⟩ := ih ⟨hinv, hvalued, htracks⟩ hmem
    refine ⟨c', hfront.trans ((bind_ok hok _).trans hrest), hcaches, fun j hj hor => hlook' j hj ?_⟩
    by_cases hjk : j = k
    · exact .inr (hjk ▸ hstored)
    · rcases hor with hin | hstored'
      · exact .inl ((List.mem_cons.mp hin).resolve_left hjk)
      · exact .inr ((hlook j hj hjk).trans hstored')

theorem flush_all (hks : ks.Perm c.entries.keys) :
    ∃ c', flush store ks c = .ok () c' ∧ Caches sound dom good look m c' ∧
      ∀ j, dom j → look c'.bs j = m j := by
  obtain ⟨c', hok, hcaches, hlook⟩ :=
    flush_caches hf h fun k hk => AList.mem_keys.mpr (hks.mem_iff.mp hk)
  refine ⟨c', hok, hcaches, fun j hj => hlook j hj ?_⟩
  by_cases hin : j ∈ c.entries
  · exact .inl (hks.mem_iff.mpr (AList.mem_keys.mp hin))
  · have hagrees := h.tracks.agrees j hj
    rw [C.holding, AList.lookup_eq_none.mpr hin] at hagrees
    exact .inr hagrees

end

theorem Caches.new {size : Nat} (hsize : 1 ≤ size) {s : σ} (hs : sound s) :
    Caches sound dom good look (look s) (new size s) := by
  refine ⟨Invariant.new hsize s, ?_, hs, ?_, fun k _ => rfl, fun k hk => hf.good s k hs hk⟩
  · intro k e he
    cases he
  · exact fun k hk => absurd rfl hk

end

theorem Caches.congr {m' : κ → ν} (h : Caches sound dom good look m c)
    (hm : ∀ k, dom k → m' k = m k) : Caches sound dom good look m' c := by
  refine ⟨h.invariant, h.valued, h.tracks.sound, h.tracks.keys, fun k hk => ?_, fun k hk => ?_⟩
  · rw [hm k hk]
    exact h.tracks.agrees k hk
  · rw [hm k hk]
    exact h.tracks.good k hk

end View

end Garnet.Arc
