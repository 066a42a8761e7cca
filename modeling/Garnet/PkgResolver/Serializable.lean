import Garnet.Lib.Assoc
import Garnet.PkgResolver.RewriteManager
import Mathlib.Algebra.Order.Ring.Int

/-! Any number of editors with transactions of their own: their edits take effect one after
another. -/

namespace Garnet.PkgResolver
open Function (update update_self)
open RewriteManager

variable {Rule : Type}

inductive Edit (Rule : Type) where
  | add (rule : Rule)
  | resetAll

def Edit.run (rules : List Rule) : Edit Rule → List Rule
  | .add rule => rule :: rules
  | .resetAll => []

def Edit.onTransaction (t : Transaction Rule) : Edit Rule → Transaction Rule
  | .add rule => t.add rule
  | .resetAll => t.resetAll

/-- What has happened, in the order of the calls: a transaction was created or edited, applied (and
the rules saved or not), or refused. -/
inductive Event (Rule : Type) where
  | transaction (id : Nat)
  | edit (id : Nat) (e : Edit Rule)
  | applied (id : Nat) (saved : Bool)
  | refused (id : Nat)

structure System (Rule : Type) where
  store : Store Rule
  opened : Nat → Option (Transaction Rule)

inductive Step (format : RuleFormat Rule) : System Rule → Event Rule → System Rule → Prop where
  | transaction {s : System Rule} (id : Nat) : s.opened id = none →
    Step format s (.transaction id) { s with opened := update s.opened id (some s.store.manager.transaction) }
  | edit {s : System Rule} {t : Transaction Rule} (id : Nat) (e : Edit Rule) : s.opened id = some t →
    Step format s (.edit id e) { s with opened := update s.opened id (some (e.onTransaction t)) }
  | applied {s : System Rule} {t : Transaction Rule} {store : Store Rule} (id : Nat) (fault : Option SaveFault) :
    s.opened id = some t → apply format fault t s.store = .ok () store →
      Step format s (.applied id fault.isNone) ⟨store, update s.opened id none⟩
  | refused {s : System Rule} {t : Transaction Rule} {store : Store Rule} (id : Nat) (fault : Option SaveFault) :
    s.opened id = some t → apply format fault t s.store = .error .tooLate store →
      Step format s (.refused id) ⟨store, update s.opened id none⟩

/-- The states that are reached, with the events so far, the latest first. -/
inductive Reach (format : RuleFormat Rule) (start : Store Rule) : List (Event Rule) → System Rule → Prop where
  | start : Reach format start [] ⟨start, fun _ => none⟩
  | step {events : List (Event Rule)} {s s' : System Rule} {e : Event Rule} :
    Reach format start events s → Step format s e s' → Reach format start (e :: events) s'

section History
variable (id : Nat)

def applies : List (Event Rule) → Nat
  | [] => 0
  | .applied _ _ :: events => applies events + 1
  | _ :: events => applies events

def appliesSince : List (Event Rule) → Nat
  | [] => 0
  | .transaction j :: events => if j = id then 0 else appliesSince events
  | .applied _ _ :: events => appliesSince events + 1
  | _ :: events => appliesSince events

def editsOf : List (Event Rule) → List (Edit Rule)
  | [] => []
  | .transaction j :: events => if j = id then [] else editsOf events
  | .edit j e :: events => if j = id then editsOf events ++ [e] else editsOf events
  | _ :: events => editsOf events

def lastSave : List (Event Rule) → Option Bool
  | [] => none
  | .applied _ saved :: _ => some saved
  | _ :: events => lastSave events

theorem appliesSince_le (events : List (Event Rule)) : appliesSince id events ≤ applies events := by
  induction events with
  | nil => exact Nat.le_refl _
  | cons e events ih =>
    cases e with
    | transaction j =>
      unfold appliesSince applies
      split
      · exact Nat.zero_le _
      · exact ih
    | edit j e => exact ih
    | applied j saved => exact Nat.succ_le_succ ih
    | refused j => exact ih

end History

section Apply
variable {format : RuleFormat Rule} {fault : Option SaveFault} {t : Transaction Rule}
  {store : Store Rule}

theorem apply_ok (h : store.manager.generation = t.generation) :
    apply format fault t store = .ok ()
      ⟨{ store.manager with dynamicRules := t.dynamicRules, generation := store.manager.generation + 1 },
        (writeRules format fault t.dynamicRules store.manager.dynamicRulesPath store.disk).2⟩ := by
  unfold apply
  rw [if_neg (fun hne => hne h)]
  rfl

theorem apply_refused (h : store.manager.generation ≠ t.generation) : apply format fault t store =
    .error .tooLate store := if_pos h

theorem apply_cases {r : EStateM.Result CommitError (Store Rule) Unit}
    (h : apply format fault t store = r) :
    store.manager.generation = t.generation ∧ r = .ok ()
        ⟨{ store.manager with dynamicRules := t.dynamicRules, generation := store.manager.generation + 1 },
          (writeRules format fault t.dynamicRules store.manager.dynamicRulesPath store.disk).2⟩ ∨
      store.manager.generation ≠ t.generation ∧ r = .error .tooLate store := by
  by_cases hgen : store.manager.generation = t.generation
  · exact .inl ⟨hgen, h.symm.trans (apply_ok hgen)⟩
  · exact .inr ⟨hgen, h.symm.trans (apply_refused hgen)⟩

theorem load_written (rules : List Rule) (path : String) (disk : Disk) :
    loadRules format path (writeRules format none rules path disk).2 = some rules := by
  unfold loadRules writeRules
  dsimp only
  rw [update_self]
  exact format.roundTrip rules

end Apply

structure Agrees (format : RuleFormat Rule) (events : List (Event Rule))
    (s : System Rule) : Prop where
  generation : s.store.manager.generation = UInt32.ofNat (applies events)
  created : ∀ id t, s.opened id = some t → t.generation =
    UInt32.ofNat (applies events - appliesSince id events)
  rules : ∀ id t, s.opened id = some t → appliesSince id events = 0 →
    t.dynamicRules = (editsOf id events).foldl Edit.run s.store.manager.dynamicRules
  saved : lastSave events = some true →
    loadRules format s.store.manager.dynamicRulesPath s.store.disk = some s.store.manager.dynamicRules

theorem ofNat_eq_iff {a b : Nat} (ha : a < 2 ^ 32) (hb : b < 2 ^ 32) :
    UInt32.ofNat a = UInt32.ofNat b ↔ a = b := by
  refine ⟨fun h => ?_, congrArg _⟩
  have hnat := congrArg UInt32.toNat h
  rw [UInt32.toNat_ofNat_of_lt' ha, UInt32.toNat_ofNat_of_lt' hb] at hnat
  exact hnat

namespace Agrees
variable {format : RuleFormat Rule} {events : List (Event Rule)} {s s' : System Rule} {e : Event Rule}

theorem generation_eq_iff (h : Agrees format events s) (hcount : applies events < 2 ^ 32) {id : Nat}
    {t : Transaction Rule} (ht : s.opened id = some t) :
    s.store.manager.generation = t.generation ↔ appliesSince id events = 0 := by
  have hle := appliesSince_le id events
  rw [h.generation, h.created id t ht, ofNat_eq_iff hcount (by omega)]
  omega

theorem onTransaction_rules (t : Transaction Rule) (e : Edit Rule) :
    (e.onTransaction t).dynamicRules = e.run t.dynamicRules ∧
    (e.onTransaction t).generation = t.generation := by
  cases e <;> exact ⟨rfl, rfl⟩

theorem step (h : Agrees format events s) (hstep : Step format s e s') :
    Agrees format (e :: events) s' := by
  cases hstep with
  | transaction id hnone =>
    refine ⟨h.generation, ?_, ?_, h.saved⟩
    · intro j t hj
      rw [appliesSince]
      rcases update_eq_some.mp hj with ⟨rfl, ht⟩ | ⟨hid, hj⟩
      · cases ht
        rw [if_pos rfl]
        exact h.generation
      · rw [if_neg hid.symm]
        exact h.created j t hj
    · intro j t hj hsince
      rw [appliesSince] at hsince
      rw [editsOf]
      rcases update_eq_some.mp hj with ⟨rfl, ht⟩ | ⟨hid, hj⟩
      · cases ht
        rw [if_pos rfl]
        rfl
      · rw [if_neg hid.symm] at hsince ⊢
        exact h.rules j t hj hsince
  | @edit t id e ht =>
    refine ⟨h.generation, ?_, ?_, h.saved⟩
    · intro j t' hj
      rcases update_eq_some.mp hj with ⟨rfl, ht'⟩ | ⟨hid, hj⟩
      · cases ht'
        rw [(onTransaction_rules t e).2]
        exact h.created j t ht
      · exact h.created j t' hj
    · intro j t' hj hsince
      rw [editsOf]
      rcases update_eq_some.mp hj with ⟨rfl, ht'⟩ | ⟨hid, hj⟩
      · cases ht'
        rw [if_pos rfl, List.foldl_append, (onTransaction_rules t e).1, h.rules j t ht hsince]
        rfl
      · rw [if_neg hid.symm]
        exact h.rules j t' hj hsince
  | @applied t store id fault ht hrun =>
    cases apply_cases hrun with
    | inr hrefused => cases hrefused.2
    | inl hok =>
      cases hok.2
      refine ⟨?_, ?_, ?_, ?_⟩
      · change s.store.manager.generation + 1 = UInt32.ofNat (applies events + 1)
        rw [h.generation, UInt32.ofNat_add]
        rfl
      · intro j t' hj
        change _ = UInt32.ofNat (applies events + 1 - (appliesSince j events + 1))
        rw [Nat.add_sub_add_right]
        exact h.created j t' (of_update_none hj).2
      · intro j t' _ hsince
        cases hsince
      · intro hsaved
        have hfault : fault = none := Option.isNone_iff_eq_none.mp (Option.some.inj hsaved)
        subst hfault
        exact load_written _ _ _
  | @refused t store id fault ht hrun =>
    cases apply_cases hrun with
    | inl hok => cases hok.2
    | inr hrefused =>
      cases hrefused.2
      exact ⟨h.generation, fun j t' hj => h.created j t' (of_update_none hj).2,
        fun j t' hj => h.rules j t' (of_update_none hj).2, h.saved⟩

end Agrees

section
variable {format : RuleFormat Rule} {staticRules : List Rule} {path : String} {disk : Disk}
  {events : List (Event Rule)}
  {s : System Rule}

theorem Reach.agrees (h : Reach format ⟨build format staticRules path disk, disk⟩ events s) :
    Agrees format events s := by
  induction h with
  | start => exact ⟨rfl, nofun, nofun, nofun⟩
  | step _ hstep ih => exact ih.step hstep

/-- A transaction commits exactly when no other did since it opened, as if it ran alone. -/
theorem transactions_serializable
    (h : Reach format ⟨build format staticRules path disk, disk⟩ events s)
    (hcount : applies events < 2 ^ 32) :
    (∀ id t fault, s.opened id = some t →
      (appliesSince id events = 0 → ∃ store, apply format fault t s.store = .ok () store ∧
        store.manager.dynamicRules =
          (editsOf id events).foldl Edit.run s.store.manager.dynamicRules) ∧
      (appliesSince id events ≠ 0 → apply format fault t s.store = .error .tooLate s.store)) ∧
    (lastSave events = some true →
      loadRules format s.store.manager.dynamicRulesPath s.store.disk =
        some s.store.manager.dynamicRules) := by
  have hagrees := h.agrees
  refine ⟨fun id t fault ht => ⟨fun hsince => ?_, fun hsince => ?_⟩, hagrees.saved⟩
  · refine ⟨_, apply_ok ((hagrees.generation_eq_iff hcount ht).mpr hsince), ?_⟩
    exact hagrees.rules id t ht hsince
  · exact apply_refused fun hgen => hsince ((hagrees.generation_eq_iff hcount ht).mp hgen)

end

def byteRules : RuleFormat UInt8 := ⟨id, some, fun _ => rfl⟩

/-- Of two editors that start together the second is refused once the first one's rules are applied
and saved; a third, which starts then, is not. -/
theorem transactions_overlapping : ∃ events s,
    Reach byteRules ⟨build byteRules [] "rules" fun _ => none, fun _ => none⟩ events s ∧
    apply byteRules none ⟨[8], 0⟩ s.store = .error .tooLate s.store ∧
    (∃ store, apply byteRules none ⟨[9, 7], 1⟩ s.store = .ok () store ∧
      store.manager.dynamicRules = [9, 7]) ∧
    loadRules byteRules s.store.manager.dynamicRulesPath s.store.disk = some [7] := by
  have hfirst : Reach byteRules ⟨build byteRules [] "rules" fun _ => none, fun _ => none⟩ _ _ :=
    .step (.step .start (.transaction 0 rfl)) (.edit 0 (.add 7) rfl)
  have hsecond := Reach.step (.step hfirst (.transaction 1 rfl)) (.edit 1 (.add 8) rfl)
  have hthird :=
    Reach.step (.step (.step hsecond (.applied 0 none rfl rfl)) (.transaction 2 rfl))
      (.edit 2 (.add 9) rfl)
  obtain ⟨hall, hsaved⟩ := transactions_serializable hthird (by decide)
  exact ⟨_, _, hthird, (hall 1 ⟨[8], 0⟩ none rfl).2 (by decide),
    (hall 2 ⟨[9, 7], 1⟩ none rfl).1 rfl, hsaved rfl⟩

end Garnet.PkgResolver
