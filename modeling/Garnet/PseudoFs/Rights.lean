import Garnet.PseudoFs.Tree

/-! When the rights of a connection stay within those of the one it came from. -/

namespace Garnet.PseudoFs
open List
open Directory (applyNodeReference applyPosix)

open Bits

/-- READABLE, WRITABLE and ADMIN of `child` are a part of those of `parent`. -/
def RightsWithin (io : Io) (parent child : Word) : Prop :=
  ∀ k, k = io.readable ∨ k = io.writable ∨ k = io.admin → has child k = true → has parent k = true

section Flags
variable {io : Io} {p f g : Word}

theorem has_fsRights (io : Io) (k : Fin 32) :
    has (fsRights io) k = true ↔ k = io.readable ∨ k = io.writable ∨ k = io.admin := by
  unfold fsRights
  simp [or_assoc]

theorem stricterOrSameRights_iff (io : Io) (p f : Word) :
    stricterOrSameRights io p f = true ↔ RightsWithin io p f := by
  unfold stricterOrSameRights RightsWithin
  rw [beq_iff_eq, and_not_eq_zero_iff]
  apply forall_congr'
  intro k
  rw [has_and, has_and, Bool.and_eq_true, Bool.and_eq_true, has_fsRights]
  tauto

theorem has_inheritedFlags {k : Fin 32} (hsame : k ≠ io.sameRights)
    (hright : has (fsRights io) k = false) :
    has (inheritedFlags io p f) k =
      (has f k || (has p k && (decide (k = io.append) || decide (k = io.nodeReference)))) := by
  unfold inheritedFlags
  dsimp only
  split
  · rw [has_or, has_and, has_and, has_not, has_bit, decide_eq_false hsame, hright, Bool.and_false,
      Bool.or_false, Bool.not_false, Bool.and_true, has_or, has_and, has_or, has_bit, has_bit]
  · rw [has_or, has_and, has_or, has_bit, has_bit]

theorem inheritRightsForClone_ok (h : inheritRightsForClone io p f = .ok g) :
    g = inheritedFlags io p f ∧ RightsWithin io p g := by
  unfold inheritRightsForClone at h
  obtain ⟨-, h⟩ := ok_of_check h
  obtain ⟨hstrict, h⟩ := ok_of_guard h
  cases h
  exact ⟨rfl, (stricterOrSameRights_iff io _ _).mp hstrict⟩

theorem posix_apart (io : Io) :
    io.posix ≠ io.sameRights ∧ has (fsRights io) io.posix = false ∧ io.posix ≠ io.append ∧
      io.posix ≠ io.nodeReference ∧ io.posix ≠ io.readable := by
  have hd := io.distinct
  simp only [nodup_cons, mem_cons, not_mem_nil, or_false, not_or] at hd
  rw [← Bool.not_eq_true, has_fsRights]
  grind

theorem nodeReference_apart (io : Io) :
    io.nodeReference ≠ io.sameRights ∧ has (fsRights io) io.nodeReference = false := by
  have hd := io.distinct
  simp only [nodup_cons, mem_cons, not_mem_nil, or_false, not_or] at hd
  rw [← Bool.not_eq_true, has_fsRights]
  grind

theorem has_inheritedFlags_posix : has (inheritedFlags io p f) io.posix = has f io.posix := by
  obtain ⟨hsame, hright, happend, href, -⟩ := posix_apart io
  rw [has_inheritedFlags hsame hright, decide_eq_false happend, decide_eq_false href, Bool.or_false,
    Bool.and_false, Bool.or_false]

theorem has_inheritedFlags_nodeReference :
    has (inheritedFlags io p f) io.nodeReference =
      (has f io.nodeReference || has p io.nodeReference) := by
  obtain ⟨hsame, hright⟩ := nodeReference_apart io
  rw [has_inheritedFlags hsame hright, decide_eq_true rfl, Bool.or_true, Bool.and_true]

theorem checkChildConnectionFlags_ok (h : checkChildConnectionFlags io p f = .ok g) :
    RightsWithin io p g ∧ (has g io.posix = true → has p io.writable = true) := by
  unfold checkChildConnectionFlags at h
  dsimp only at h
  by_cases hw : p &&& bit io.writable = 0
  · rw [if_pos hw] at h
    obtain ⟨hstrict, h⟩ := ok_of_guard h
    cases h
    refine ⟨(stricterOrSameRights_iff io _ _).mp hstrict, ?_⟩
    rw [has_and, has_not, has_bit, decide_eq_true rfl, Bool.not_true, Bool.and_false]
    exact nofun
  · rw [if_neg hw] at h
    rw [and_bit_eq_zero_iff, Bool.not_eq_false] at hw
    obtain ⟨hstrict, h⟩ := ok_of_guard h
    cases h
    exact ⟨(stricterOrSameRights_iff io _ _).mp hstrict, fun _ => hw⟩

theorem mask_ne_zero_iff (x : Word) (k : Fin 32) : x &&& bit k ≠ 0 ↔ has x k = true := by
  rw [ne_eq, and_bit_eq_zero_iff, Bool.not_eq_false]

end Flags

section Validation
variable {io : Io} {p f g mode : Word} {onRead : Except Status (List UInt8)}

theorem has_applyNodeReference (io : Io) (f : Word) (k : Fin 32) (h : k ≠ io.nodeReference) :
    has (applyNodeReference io f) k =
      (has f k && (!has f io.nodeReference || has io.openFlagsAllowedWithNodeReference k)) := by
  unfold applyNodeReference
  split
  next href =>
    rw [mask_ne_zero_iff] at href
    rw [has_and, has_and, has_not, has_bit, decide_eq_false h, href, Bool.not_false, Bool.and_true,
      Bool.not_true, Bool.false_or]
  next href =>
    rw [mask_ne_zero_iff, Bool.not_eq_true] at href
    rw [href, Bool.not_false, Bool.true_or, Bool.and_true]

theorem has_applyPosix (io : Io) (f : Word) (k : Fin 32) (h : k ≠ io.posix) :
    has (applyPosix io f) k =
      (has f k || (has f io.posix && decide (k = io.writable))) := by
  unfold applyPosix
  split
  next hpos =>
    rw [mask_ne_zero_iff] at hpos
    rw [has_or, has_and, has_not, has_bit, decide_eq_false h, has_bit, hpos, Bool.not_false,
      Bool.and_true, Bool.true_and]
  next hpos =>
    rw [mask_ne_zero_iff, Bool.not_eq_true] at hpos
    rw [hpos, Bool.false_and, Bool.or_false]

theorem Directory.newConnectionValidateFlags_ok
    (h : Directory.newConnectionValidateFlags io f mode = .ok g) :
    g = applyPosix io (applyNodeReference io f) := by
  unfold Directory.newConnectionValidateFlags at h
  obtain ⟨_, -, h⟩ := ok_of_bind h
  obtain ⟨-, h⟩ := ok_of_check h
  obtain ⟨-, h⟩ := ok_of_check h
  obtain ⟨-, h⟩ := ok_of_check h
  cases h
  rfl

theorem File.newConnectionValidateFlags_ok {readable writable : Bool}
    (h : File.newConnectionValidateFlags io f mode readable writable = .ok g) (k : Fin 32)
    (hk : has g k = true) : has f k = true := by
  have hg : g = File.applyNodeReference io f &&& ~~~bit io.posix := by
    unfold File.newConnectionValidateFlags at h
    obtain ⟨_, -, h⟩ := ok_of_bind h
    obtain ⟨-, h⟩ := ok_of_check h
    obtain ⟨-, h⟩ := ok_of_check h
    obtain ⟨-, h⟩ := ok_of_check h
    obtain ⟨-, h⟩ := ok_of_check h
    obtain ⟨-, h⟩ := ok_of_check h
    cases h
    rfl
  rw [hg, has_and, Bool.and_eq_true] at hk
  have href := hk.1
  unfold File.applyNodeReference at href
  split at href
  · rw [has_and, has_and, Bool.and_eq_true, Bool.and_eq_true] at href
    exact href.1.1
  · exact href

theorem PseudoFile.connect_flags {file : PseudoFile}
    {c : FileConnection} (h : file.connect io onRead f mode = .ok c) (k : Fin 32)
    (hk : has c.flags k = true) : has f k = true := by
  unfold PseudoFile.connect at h
  obtain ⟨g, hflags, h⟩ := ok_of_bind h
  obtain ⟨_, -, h⟩ := ok_of_bind h
  cases h
  exact File.newConnectionValidateFlags_ok hflags k hk

/-- The node is a directory and POSIX is left in the flags it is connected to with. -/
def TurnsWritable (io : Io) (node : Entry) (flags : Word) : Prop :=
  (∃ entries, node = .directory entries) ∧
    has (Directory.applyNodeReference io flags) io.posix = true

theorem addConnection_rights {node : Entry} {c : Connection}
    (hwithin : RightsWithin io p f) (h : addConnection io onRead node f mode = .ok c) :
    RightsWithin io p c.flags ↔ (TurnsWritable io node f → has p io.writable = true) := by
  cases node with
  | file file =>
    have hsame : RightsWithin io p c.flags := by
      obtain ⟨conn, hconn, h⟩ := ok_of_bind h
      cases h
      exact fun k hk hc => hwithin k hk (PseudoFile.connect_flags hconn k hc)
    refine iff_of_true hsame ?_
    rintro ⟨⟨_, hnode⟩, -⟩
    cases hnode
  | directory entries =>
    have hflags : c.flags = applyPosix io (applyNodeReference io f) := by
      obtain ⟨g, hvalid, h⟩ := ok_of_bind h
      cases h
      exact Directory.newConnectionValidateFlags_ok hvalid
    obtain ⟨-, hright, -, -, -⟩ := posix_apart io
    have hnot : ∀ k, k = io.readable ∨ k = io.writable ∨ k = io.admin → k ≠ io.posix := by
      intro k hk heq
      rw [← has_fsRights, heq, hright] at hk
      cases hk
    rw [hflags]
    constructor
    · rintro hall ⟨-, hpos⟩
      apply hall io.writable (.inr (.inl rfl))
      rw [has_applyPosix _ _ _ (hnot _ (.inr (.inl rfl))), hpos, decide_eq_true rfl,
        Bool.and_true, Bool.or_true]
    · intro himp k hk hc
      rw [has_applyPosix _ _ _ (hnot k hk), Bool.or_eq_true, Bool.and_eq_true,
        decide_eq_true_eq] at hc
      rcases hc with hc | ⟨hpos, hk'⟩
      · have hf : has f k = true := by
          unfold applyNodeReference at hc
          split at hc
          · rw [has_and, has_and, Bool.and_eq_true, Bool.and_eq_true] at hc
            exact hc.1.1
          · exact hc
        exact hwithin k hk hf
      · rw [hk']
        exact himp ⟨⟨entries, rfl⟩, hpos⟩

end Validation

section Requests
variable {io : Io} {onRead : Except Status (List UInt8)} {c c' : Connection}
  {flags mode : Word} {path : String} {held : List Connection} {o : Obtained}

def NodeRequest.selfFlags : NodeRequest → Option Word
  | .clone flags => some flags
  | .open flags _ path => if isSelf path then some flags else none

def keepsPosix (io : Io) (parent flags : Word) : Bool :=
  has flags io.posix &&
    (!(has flags io.nodeReference || has parent io.nodeReference) ||
      has io.openFlagsAllowedWithNodeReference io.posix)

/-- A directory is not asked for another connection to itself with POSIX through
one that is not writable. -/
def Checked (io : Io) (c : Connection) (r : NodeRequest) : Prop :=
  ∀ flags entries, r.selfFlags = some flags → c.node = .directory entries →
    keepsPosix io c.flags flags = true → has c.flags io.writable = true

theorem handleClone_rights (h : handleClone io onRead c flags mode = .ok c') :
    RightsWithin io c.flags c'.flags ↔
      ∀ entries, c.node = .directory entries → keepsPosix io c.flags flags = true →
        has c.flags io.writable = true := by
  unfold handleClone at h
  obtain ⟨g, hinherit, h⟩ := ok_of_bind h
  obtain ⟨hg, hwithin⟩ := inheritRightsForClone_ok hinherit
  have hpos : has (applyNodeReference io g) io.posix = keepsPosix io c.flags flags := by
    obtain ⟨-, -, -, href, -⟩ := posix_apart io
    rw [has_applyNodeReference _ _ _ href, hg, has_inheritedFlags_posix,
      has_inheritedFlags_nodeReference]
    rfl
  rw [addConnection_rights hwithin h]
  unfold TurnsWritable
  rw [hpos]
  constructor
  · intro himp entries hnode hkeeps
    exact himp ⟨⟨entries, hnode⟩, hkeeps⟩
  · rintro hall ⟨⟨entries, hnode⟩, hkeeps⟩
    exact hall entries hnode hkeeps

theorem openEntry_rights {p : Word} (hwithin : RightsWithin io p flags)
    (hpos : has flags io.posix = true → has p io.writable = true) {path : List String}
    {node : Entry} (h : openEntry io onRead flags mode path node = .ok c') :
    RightsWithin io p c'.flags := by
  induction path generalizing node with
  | nil =>
    unfold openEntry at h
    rw [addConnection_rights hwithin h]
    rintro ⟨-, hkept⟩
    obtain ⟨-, -, -, href, -⟩ := posix_apart io
    rw [has_applyNodeReference _ _ _ href, Bool.and_eq_true] at hkept
    exact hpos hkept.1
  | cons name rest ih =>
    cases node with
    | file file =>
      unfold openEntry at h
      cases h
    | directory entries =>
      unfold openEntry at h
      cases hentry : entries.lookup name with
      | none =>
        rw [hentry] at h
        cases h
      | some entry =>
        rw [hentry] at h
        exact ih h

theorem handleOpen_rights (hself : isSelf path = false)
    (h : handleOpen io onRead c flags mode path = .ok c') : RightsWithin io c.flags c'.flags := by
  unfold handleOpen at h
  rw [hself] at h
  obtain ⟨-, h⟩ := ok_of_check h
  rw [if_neg nofun] at h
  obtain ⟨names, -, h⟩ := ok_of_bind h
  obtain ⟨g, hcheck, h⟩ := ok_of_bind h
  obtain ⟨hwithin, hpos⟩ := checkChildConnectionFlags_ok hcheck
  exact openEntry_rights hwithin hpos h

theorem handleOpen_self (hself : isSelf path = true) :
    handleOpen io onRead c flags mode path = handleClone io onRead c flags mode := by
  have hpath : (path == "/" || path == "") = false := by
    unfold isSelf at hself
    rw [Bool.or_eq_true, beq_iff_eq, beq_iff_eq] at hself
    rcases hself with rfl | rfl
    · decide
    · decide
  unfold handleOpen
  rw [hpath, hself, if_neg nofun, if_pos rfl]

theorem serve_rights {r : NodeRequest} (h : serve io onRead c r = some (.ok c')) :
    RightsWithin io c.flags c'.flags ↔ Checked io c r := by
  cases r with
  | clone flags =>
    have hclone : handleClone io onRead c flags 0 = .ok c' := Option.some.inj h
    rw [handleClone_rights hclone]
    constructor
    · rintro hall flags' entries ⟨⟩
      exact hall entries
    · intro hall entries
      exact hall flags entries rfl
  | «open» flags mode path =>
    cases hnode : c.node with
    | file file =>
      unfold serve at h
      rw [hnode] at h
      cases h
    | directory entries =>
      have hopen : handleOpen io onRead c flags mode path = .ok c' := by
        unfold serve at h
        rw [hnode] at h
        exact Option.some.inj h
      cases hself : isSelf path with
      | false =>
        refine iff_of_true (handleOpen_rights hself hopen) ?_
        intro flags' entries' hflags
        dsimp only [NodeRequest.selfFlags] at hflags
        rw [hself] at hflags
        cases hflags
      | true =>
        rw [handleOpen_self hself] at hopen
        rw [handleClone_rights hopen]
        have hflags : (NodeRequest.open flags mode path).selfFlags = some flags := if_pos hself
        constructor
        · intro hall flags' entries' hflags'
          rw [hflags] at hflags'
          cases hflags'
          exact hall entries'
        · intro hall entries'
          exact hall flags entries' hflags

theorem obtain?_serve {cmd : Command} (h : obtain? io held cmd = some o) :
    serve io cmd.onRead o.parent o.request = some (.ok o.child) := by
  unfold obtain? at h
  split at h
  · cases h
  · split at h
    · rename_i hserve
      cases h
      exact hserve
    · cases h

theorem session_serve {cmds : List Command} (h : o ∈ session io cmds held) :
    ∃ onRead, serve io onRead o.parent o.request = some (.ok o.child) := by
  induction cmds generalizing held with
  | nil => cases h
  | cons cmd rest ih =>
    unfold session at h
    cases hstep : obtain? io held cmd with
    | none =>
      rw [hstep] at h
      exact ih h
    | some o' =>
      rw [hstep] at h
      rcases mem_cons.mp h with rfl | hmem
      · exact ⟨cmd.onRead, obtain?_serve hstep⟩
      · exact ih hmem

/-- Rights never grow in a session exactly when every request that makes a
connection is checked. -/
theorem rights_never_grow_iff (io : Io) (c : Connection) (cmds : List Command) :
    (∀ o ∈ session io cmds [c], RightsWithin io o.parent.flags o.child.flags) ↔
      ∀ o ∈ session io cmds [c], Checked io o.parent o.request := by
  apply forall₂_congr
  intro o ho
  obtain ⟨onRead, hserve⟩ := session_serve ho
  exact serve_rights hserve

/-- A clone with POSIX of a directory connection that can only read. -/
theorem clone_posix_gains_writable :
    let c : Connection := ⟨.directory [], bit sampleIo.readable⟩
    let c' : Connection := ⟨.directory [], bit sampleIo.readable ||| bit sampleIo.writable⟩
    let r : NodeRequest := .clone (bit sampleIo.readable ||| bit sampleIo.posix)
    session sampleIo [⟨0, r, .ok []⟩] [c] = [⟨c, r, c'⟩] ∧
      ¬ RightsWithin sampleIo c.flags c'.flags := by
  refine ⟨rfl, ?_⟩
  intro h
  exact absurd (h sampleIo.writable (.inr (.inl rfl)) (by decide)) (by decide)

end Requests

end Garnet.PseudoFs
