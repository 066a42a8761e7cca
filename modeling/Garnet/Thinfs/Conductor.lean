import Garnet.Lib.Splice
import Garnet.Thinfs.ArcView

/-! The conductor of thinfs: reads and writes of any length at any offset, over a block device
behind the cache of its blocks. -/

namespace Garnet.Thinio
open List
open Arc

inductive ErrKind where
  | readErr
  | writeErr
  deriving Repr, DecidableEq

structure DevError where
  kind : ErrKind
  off : Nat
  data : List UInt8
  err : String
  deriving Repr, DecidableEq

/-- `block.Device`, as far as the conductor uses it. -/
structure BlockDevice (σ : Type) where
  blockSize : Nat
  readAt : Nat → Nat → σ → Except String (List UInt8) × σ
  writeAt : List UInt8 → Nat → σ → Except String Unit × σ
  flush : σ → Except String Unit × σ

structure DeviceState (σ : Type) where
  dev : σ
  errs : List DevError

section Model
variable {σ : Type}

/-- The tries after the first one: they wait from a millisecond to below two seconds, each twice
as long as the one before. -/
def retries : Nat := 10

def attempt {α : Type} (io : σ → Except String α × σ) : Nat → σ → Except String α × σ
  | 0, s => io s
  | n + 1, s =>
    match io s with
    | (.ok a, s') => (.ok a, s')
    | (.error _, s') => attempt io n s'

variable (D : BlockDevice σ)

/-- The device as a backing store. An offset that is not aligned panics, and so does a value that
is no buffer. -/
def device : BackingStore Nat (List UInt8) (DeviceState σ) Fault where
  get off := fun s =>
    if off % D.blockSize ≠ 0 then .error .panic s
    else
      match attempt (D.readAt D.blockSize off) retries s.dev with
      | (.ok buf, dev) => .ok (some buf) ⟨dev, s.errs⟩
      | (.error err, dev) => .ok none ⟨dev, s.errs ++ [⟨.readErr, off, [], err⟩]⟩
  put off v := fun s =>
    if off % D.blockSize ≠ 0 then .error .panic s
    else
      match v with
      | none => .error .panic s
      | some buf =>
        match attempt (D.writeAt buf off) retries s.dev with
        | (.ok (), dev) => .ok () ⟨dev, s.errs⟩
        | (.error err, dev) => .ok () ⟨dev, s.errs ++ [⟨.writeErr, off, buf, err⟩]⟩

abbrev Conductor (σ : Type) := C Nat (List UInt8) (DeviceState σ)

abbrev ConductorM (σ : Type) := EStateM Fault (Conductor σ)

def newConductor (dev : σ) (cacheSize : Nat) : Conductor σ :=
  new (cacheSize / D.blockSize) ⟨dev, []⟩

def onCache {α : Type} (x : CacheM Nat (List UInt8) (DeviceState σ) Fault α) : ConductorM σ α :=
  fun c =>
  match x c with
  | .ok a c' => .ok a c'
  | .error (.store e) c' => .error e c'
  | .error _ c' => .error .panic c'

def firstErr : ConductorM σ (Option DevError) := fun c => .ok c.bs.errs.head? c

/-- `Get`, and the buffer in the entry. -/
def getBlock (off : Nat) : ConductorM σ (Except DevError (List UInt8)) := do
  onCache (getEntry (device D) off)
  match ← firstErr with
  | some e => pure (.error e)
  | none =>
    match (← onCache (entryOf off)).value with
    | some buf => pure (.ok buf)
    | none => throw .panic

/-- The loop over whole blocks. Every round copies a byte at least if blocks are not empty. -/
def readLoop (D : BlockDevice σ) (fuel len off : Nat) (done : List UInt8) :
    ConductorM σ (List UInt8 × Option DevError) :=
  if len = 0 then pure (done, none)
  else
    match fuel with
    | 0 => throw .diverge
    | fuel + 1 => do
      match ← getBlock D off with
      | .error e => pure (done, some e)
      | .ok buf =>
        let copied := buf.take len
        readLoop D fuel (len - copied.length) (off + copied.length) (done ++ copied)

/-- `ReadAt` into a buffer of `len` bytes: the bytes that were copied, and the error. -/
def readAt (len off : Nat) : ConductorM σ (List UInt8 × Option DevError) := do
  match ← firstErr with
  | some e => pure ([], some e)
  | none =>
    let rem := off % D.blockSize
    if rem = 0 then readLoop D len len off []
    else
      match ← getBlock D (off - rem) with
      | .error e => pure ([], some e)
      | .ok buf =>
        if buf.length < rem then throw .panic
        else
          let copied := (buf.drop rem).take len
          readLoop D len (len - copied.length) (off + copied.length) copied

/-- Copy to a part of a block, from `start` on, in the cache: the number of bytes copied. -/
def writeBlock (off start : Nat) (p : List UInt8) : ConductorM σ (Except DevError Nat) := do
  match ← getBlock D off with
  | .error e => pure (.error e)
  | .ok buf =>
    if buf.length < start then throw .panic
    else do
      let copied := min (buf.length - start) p.length
      onCache (setValue off (some (splice start (p.take copied) buf)) true)
      pure (.ok copied)

/-- The loop over whole blocks: what is left, where it goes and how many bytes were written. -/
def writeLoop (D : BlockDevice σ) (fuel : Nat) (p : List UInt8) (off n : Nat) :
    ConductorM σ (Except (Nat × DevError) (List UInt8 × Nat × Nat)) :=
  if p.length < D.blockSize then pure (.ok (p, off, n))
  else
    match fuel with
    | 0 => throw .diverge
    | fuel + 1 => do
      onCache (put (device D) off (some (p.take D.blockSize)))
      match ← firstErr with
      | some e => pure (.error (n, e))
      | none => writeLoop D fuel (p.drop D.blockSize) (off + D.blockSize) (n + D.blockSize)

def writeAligned (p : List UInt8) (off n : Nat) : ConductorM σ (Nat × Option DevError) := do
  match ← writeLoop D p.length p off n with
  | .error (n, e) => pure (n, some e)
  | .ok (p, off, n) =>
    if p.length = 0 then pure (n, none)
    else
      match ← writeBlock D off 0 p with
      | .error e => pure (n, some e)
      | .ok copied => pure (n + copied, none)

/-- `WriteAt`: the number of bytes written and the error. -/
def writeAt (p : List UInt8) (off : Nat) : ConductorM σ (Nat × Option DevError) := do
  match ← firstErr with
  | some e => pure (0, some e)
  | none =>
    let rem := off % D.blockSize
    if rem = 0 then writeAligned D p off 0
    else
      match ← writeBlock D (off - rem) rem p with
      | .error e => pure (0, some e)
      | .ok copied => writeAligned D (p.drop copied) (off + copied) copied

/-- `Flush`. What the flush of the device itself returns is not looked at. -/
def flush (D : BlockDevice σ) (order : List Nat) : ConductorM σ (Option DevError) := do
  match ← firstErr with
  | some e => pure (some e)
  | none => do
    onCache (Arc.flush (device D) order)
    match ← firstErr with
    | some e => pure (some e)
    | none => do
      modify fun c => { c with bs := { c.bs with dev := (D.flush c.bs.dev).2 } }
      firstErr

end Model

/-- A device whose reads and writes of whole blocks succeed, and the bytes that it holds. -/
structure Works {σ : Type} (D : BlockDevice σ) (contents : σ → List UInt8) (n : Nat) : Prop where
  blockSize : 0 < D.blockSize
  whole : D.blockSize ∣ n
  read : ∀ s off, (contents s).length = n → D.blockSize ∣ off → off + D.blockSize ≤ n →
    ∃ s', D.readAt D.blockSize off s = (.ok (slice D.blockSize off (contents s)), s') ∧
      contents s' = contents s
  write : ∀ s buf off, (contents s).length = n → D.blockSize ∣ off → off + D.blockSize ≤ n →
    buf.length = D.blockSize →
    ∃ s', D.writeAt buf off s = (.ok (), s') ∧ contents s' = splice off buf (contents s)
  flush : ∀ s, contents (D.flush s).2 = contents s

section Spec
variable {σ : Type} {D : BlockDevice σ} {contents : σ → List UInt8} {size : Nat}

variable {α : Type} {a : α}

theorem attempt_ok {io : σ → Except String α × σ} {s s' : σ} (h : io s = (.ok a, s')) (n : Nat) :
    attempt io n s = (.ok a, s') := by
  cases n with
  | zero => exact h
  | succ n => simp only [attempt, h]

def IsBlock (D : BlockDevice σ) (size off : Nat) : Prop :=
  D.blockSize ∣ off ∧ off + D.blockSize ≤ size

def Healthy (contents : σ → List UInt8) (size : Nat) (s : DeviceState σ) : Prop :=
  s.errs = [] ∧ (contents s.dev).length = size

variable {k : Nat}

theorem IsBlock.apart {j : Nat} (hj : IsBlock D size j) (hk : IsBlock D size k) (hne : j ≠ k) :
    j + D.blockSize ≤ k ∨ k + D.blockSize ≤ j := by
  obtain ⟨⟨a, rfl⟩, _⟩ := hj
  obtain ⟨⟨b, rfl⟩, _⟩ := hk
  rcases lt_or_ge a b with h | h
  · left
    rw [← Nat.mul_succ]
    exact Nat.mul_le_mul_left _ h
  · have hlt : b < a := by
      apply Nat.lt_of_le_of_ne h
      intro heq
      exact hne (by rw [heq])
    right
    rw [← Nat.mul_succ]
    exact Nat.mul_le_mul_left _ hlt

theorem Works.faithful (hD : Works D contents size) :
    Faithful (device D) (Healthy contents size) (IsBlock D size) (fun v => v.length = D.blockSize)
      (fun s k => slice D.blockSize k (contents s.dev)) := by
  have haligned {k : Nat} (hk : IsBlock D size k) : ¬ k % D.blockSize ≠ 0 :=
    fun hne => hne (Nat.mod_eq_zero_of_dvd hk.1)
  refine ⟨?_, ?_, ?_⟩
  · intro s k hs hk
    obtain ⟨dev, hread, hsame⟩ := hD.read s.dev k hs.2 hk.1 hk.2
    refine ⟨⟨dev, s.errs⟩, ?_, ⟨hs.1, by rw [hsame]; exact hs.2⟩, fun j _ => by rw [hsame]⟩
    simp only [device, if_neg (haligned hk), attempt_ok hread]
  · intro s k v hs hk hv
    obtain ⟨dev, hwrite, hnext⟩ := hD.write s.dev v k hs.2 hk.1 hk.2 hv
    have hfit : k + v.length ≤ (contents s.dev).length := by rw [hv, hs.2]; exact hk.2
    refine ⟨⟨dev, s.errs⟩, ?_, ⟨hs.1, by rw [hnext, splice_length hfit]; exact hs.2⟩, fun j hj => ?_⟩
    · simp only [device, if_neg (haligned hk), attempt_ok hwrite]
    · rw [hnext]
      split
      next heq =>
        rw [heq, ← hv]
        exact slice_splice_self (by omega)
      next hne => exact slice_splice_apart (by omega) (hv ▸ hj.apart hk hne)
  · intro s k hs hk
    exact slice_length (by rw [hs.2]; exact hk.2)

def Holds (D : BlockDevice σ) (contents : σ → List UInt8) (size : Nat) (data : List UInt8)
    (c : Conductor σ) : Prop :=
  data.length = size ∧ Caches (Healthy contents size) (IsBlock D size) (fun v => v.length = D.blockSize)
    (fun s k => slice D.blockSize k (contents s.dev)) (fun k => slice D.blockSize k data) c

variable {data : List UInt8} {c : Conductor σ} {p : List UInt8}

theorem Holds.firstErr (h : Holds D contents size data c) : firstErr c = .ok none c := by
  rw [Thinio.firstErr, h.2.tracks.sound.1]
  rfl

theorem onCache_ok {x : CacheM Nat (List UInt8) (DeviceState σ) Fault α} {c' : Conductor σ}
    (h : x c = .ok a c') : onCache x c = .ok a c' := by
  simp only [onCache, h]

section
variable {off : Nat} (hD : Works D contents size)
include hD

theorem getBlock_ok (h : Holds D contents size data c) (hoff : IsBlock D size off) :
    ∃ c' e, getBlock D off c = .ok (.ok (slice D.blockSize off data)) c' ∧
      Holds D contents size data c' ∧
      c'.entries.lookup off = some e ∧ e.inHistory = false := by
  obtain ⟨c', e, hget, hcaches, he, hhist, hvalue⟩ := getEntry_caches hD.faithful h.2 hoff
  have hc' : Holds D contents size data c' := ⟨h.1, hcaches⟩
  refine ⟨c', e, ?_, hc', he, hhist⟩
  refine (bind_ok (onCache_ok hget) _).trans ((bind_ok hc'.firstErr _).trans ?_)
  refine (bind_ok (onCache_ok (entryOf_ok he)) _).trans ?_
  rw [hvalue]
  rfl

theorem Works.isBlock (halign : D.blockSize ∣ off) (hoff : off < size) : IsBlock D size off := by
  refine ⟨halign, ?_⟩
  obtain ⟨a, rfl⟩ := halign
  obtain ⟨b, hb⟩ := hD.whole
  rw [hb] at hoff ⊢
  have hlt : a < b := Nat.lt_of_mul_lt_mul_left hoff
  rw [← Nat.mul_succ]
  exact Nat.mul_le_mul_left _ hlt

theorem Works.blockOf {len : Nat} (hoff : off + len ≤ size) (hrem : off % D.blockSize ≠ 0) :
    IsBlock D size (off - off % D.blockSize) ∧ off % D.blockSize < D.blockSize ∧
      off - off % D.blockSize + off % D.blockSize = off := by
  have hle := Nat.mod_le off D.blockSize
  exact ⟨hD.isBlock (Nat.dvd_sub_mod off) (by omega), Nat.mod_lt _ hD.blockSize, by omega⟩

end

variable {off : Nat}

theorem Works.next_block (_ : Works D contents size) {addr rem : Nat} (halign : D.blockSize ∣ addr)
    (hstart : addr + rem = off) (hlt : rem < D.blockSize) (len : Nat) :
    D.blockSize ∣ off + min len (D.blockSize - rem) ∨ len - min len (D.blockSize - rem) = 0 := by
  rcases le_total len (D.blockSize - rem) with hle | hge
  · right
    omega
  · left
    have hsum : off + min len (D.blockSize - rem) = addr + D.blockSize := by omega
    rw [hsum]
    exact Nat.dvd_add halign (Nat.dvd_refl _)

variable (hD : Works D contents size)
include hD

variable {len : Nat}

theorem readLoop_ok (fuel : Nat) (done : List UInt8) (h : Holds D contents size data c)
    (halign : D.blockSize ∣ off ∨ len = 0) (hoff : off + len ≤ size) (hfuel : len ≤ fuel) :
    ∃ c', readLoop D fuel len off done c = .ok (done ++ slice len off data, none) c' ∧
    Holds D contents size data c' := by
  induction fuel generalizing len off done c with
  | zero =>
    obtain rfl : len = 0 := by omega
    refine ⟨c, ?_, h⟩
    rw [slice_zero, append_nil]
    rfl
  | succ fuel ih =>
    unfold readLoop
    split
    next hlen =>
      refine ⟨c, ?_, h⟩
      rw [hlen, slice_zero, append_nil]
      rfl
    next hlen =>
      have halign : D.blockSize ∣ off := halign.resolve_right hlen
      have hblock := hD.isBlock halign (by omega)
      obtain ⟨c₁, e, hget, h₁, _⟩ := getBlock_ok hD h hblock
      have hpos := hD.blockSize
      have hcopied : (slice (min len D.blockSize) off data).length = min len D.blockSize :=
        slice_length (by rw [h.1]; omega)
      have hnext : D.blockSize ∣ off + min len D.blockSize ∨ len - min len D.blockSize = 0 :=
        hD.next_block halign (Nat.add_zero off) hpos len
      obtain ⟨c', hrest, h'⟩ :=
        ih (done ++ slice (min len D.blockSize) off data) h₁ hnext (by omega) (by omega)
      refine ⟨c', ?_, h'⟩
      refine (bind_ok hget _).trans ?_
      simp only [take_slice, hcopied]
      rw [hrest, append_assoc, slice_append (by rw [h.1]; omega)]
      congr 4
      omega

theorem readAt_ok (h : Holds D contents size data c) (hoff : off + len ≤ size) :
    ∃ c', readAt D len off c = .ok (slice len off data, none) c' ∧
    Holds D contents size data c' := by
  unfold readAt
  rw [bind_ok h.firstErr]
  dsimp only
  split
  next hrem => exact readLoop_ok hD len [] h (.inl (Nat.dvd_of_mod_eq_zero hrem)) hoff (le_refl len)
  next hrem =>
    obtain ⟨hblock, hlt, hstart⟩ := hD.blockOf hoff hrem
    generalize off % D.blockSize = rem at *
    generalize off - rem = addr at *
    obtain ⟨c₁, e, hget, h₁, _⟩ := getBlock_ok hD h hblock
    have hbuf : (slice D.blockSize addr data).length = D.blockSize :=
      slice_length (by rw [h.1]; exact hblock.2)
    have hlen : (slice (min len (D.blockSize - rem)) off data).length = min len (D.blockSize - rem) :=
      slice_length (by rw [h.1]; omega)
    obtain ⟨c', hrest, h'⟩ := readLoop_ok hD len (slice (min len (D.blockSize - rem)) off data) h₁
      (hD.next_block hblock.1 hstart hlt len) (by omega) (by omega)
    refine ⟨c', ?_, h'⟩
    refine (bind_ok hget _).trans ?_
    simp only [drop_slice, take_slice, hstart, hlen, hbuf, if_neg (Nat.not_lt.mpr (le_of_lt hlt))]
    rw [hrest, slice_append (by rw [h.1]; omega)]
    congr 3
    omega

omit hD in
theorem Holds.of_update (hdata : data.length = size) (hk : IsBlock D size k) {v : List UInt8}
    (hv : v.length = D.blockSize)
    (h : Caches (Healthy contents size) (IsBlock D size) (fun v => v.length = D.blockSize)
      (fun s k => slice D.blockSize k (contents s.dev))
      (Function.update (fun k => slice D.blockSize k data) k v) c) :
    Holds D contents size (splice k v data) c := by
  have hfit : k + v.length ≤ data.length := by rw [hv, hdata]; exact hk.2
  refine ⟨(splice_length hfit).trans hdata, h.congr fun j hj => ?_⟩
  by_cases hjk : j = k
  · subst hjk
    rw [Function.update_self, ← hv]
    exact slice_splice_self (by omega)
  · rw [Function.update_of_ne hjk]
    exact slice_splice_apart (by omega) (hv ▸ hj.apart hk hjk)

theorem writeBlock_ok (h : Holds D contents size data c) {start : Nat} (hoff : IsBlock D size off)
    (hstart : start ≤ D.blockSize) (p : List UInt8) :
    ∃ c', writeBlock D off start p c = .ok (.ok (min (D.blockSize - start) p.length)) c' ∧
      Holds D contents size (splice (off + start)
        (p.take (min (D.blockSize - start) p.length)) data) c' := by
  obtain ⟨c₁, e, hget, h₁, he, hhist⟩ := getBlock_ok hD h hoff
  have hbuf : (slice D.blockSize off data).length = D.blockSize :=
    slice_length (by rw [h.1]; exact hoff.2)
  have hcopied : (p.take (min (D.blockSize - start) p.length)).length =
      min (D.blockSize - start) p.length := by
    rw [length_take]
    omega
  have hlen : (splice start (p.take (min (D.blockSize - start) p.length))
    (slice D.blockSize off data)).length =
      D.blockSize := (splice_length (by rw [hbuf, hcopied]; omega)).trans hbuf
  obtain ⟨c', hset, hcaches⟩ := setValue_caches (ε := Fault) h₁.2 hoff he hhist hlen
  refine ⟨c', ?_, ?_⟩
  · refine (bind_ok hget _).trans ?_
    simp only [hbuf, if_neg (Nat.not_lt.mpr hstart)]
    exact bind_ok (onCache_ok hset) _
  · have hholds := Holds.of_update h₁.1 hoff hlen hcaches
    rwa [splice_slice (by rw [h.1]; exact hoff.2) (by rw [hcopied]; omega)] at hholds

theorem writeLoop_ok (fuel n : Nat) (h : Holds D contents size data c)
    (halign : D.blockSize ∣ off ∨ p.length = 0) (hoff : off + p.length ≤ size)
    (hfuel : p.length ≤ fuel) :
    ∃ c' q r, p = q ++ r ∧ r.length < D.blockSize ∧ (D.blockSize ∣ off + q.length ∨ r.length = 0) ∧
      writeLoop D fuel p off n c = .ok (.ok (r, off + q.length, n + q.length)) c' ∧
      Holds D contents size (splice off q data) c' := by
  induction fuel generalizing p off n c data with
  | zero =>
    obtain rfl : p = [] := length_eq_zero_iff.mp (by omega)
    refine ⟨c, [], [], rfl, hD.blockSize, .inr rfl, ?_, by rw [splice_nil]; exact h⟩
    unfold writeLoop
    exact congrFun (if_pos hD.blockSize) c
  | succ fuel ih =>
    by_cases hlen : p.length < D.blockSize
    · refine ⟨c, [], p, rfl, hlen, halign, ?_, by rw [splice_nil]; exact h⟩
      unfold writeLoop
      exact congrFun (if_pos hlen) c
    · have hpos := hD.blockSize
      have halign : D.blockSize ∣ off := halign.resolve_right (by omega)
      have hblock : IsBlock D size off := ⟨halign, by omega⟩
      have hv : (p.take D.blockSize).length = D.blockSize := by
        rw [length_take]
        omega
      have hdrop : (p.drop D.blockSize).length = p.length - D.blockSize := length_drop
      obtain ⟨c₁, hput, hcaches⟩ := put_caches hD.faithful h.2 hblock hv
      have h₁ := Holds.of_update h.1 hblock hv hcaches
      obtain ⟨c', q, r, hp, hr, hnext, hrest, h'⟩ :=
        @ih (splice off (p.take D.blockSize) data) c₁ (p.drop D.blockSize)
        (off + D.blockSize) (n + D.blockSize) h₁ (.inl (Nat.dvd_add halign (Nat.dvd_refl _)))
          (by omega) (by omega)
      have hq : (p.take D.blockSize ++ q).length = D.blockSize + q.length := by rw [length_append, hv]
      refine ⟨c', p.take D.blockSize ++ q, r, ?_, hr, ?_, ?_, ?_⟩
      · rw [append_assoc, ← hp, take_append_drop]
      · rw [hq, ← Nat.add_assoc]
        exact hnext
      · unfold writeLoop
        refine (congrFun (if_neg hlen) c).trans ?_
        refine (bind_ok (onCache_ok hput) _).trans ((bind_ok h₁.firstErr _).trans ?_)
        rw [hq, ← Nat.add_assoc, ← Nat.add_assoc]
        exact hrest
      · have hsplice :=
          @splice_splice _ data (p.take D.blockSize) q off (by rw [hv, h.1]; exact hblock.2)
        rw [hv] at hsplice
        rwa [hsplice] at h'

variable (h : Holds D contents size data c)
include h

theorem writeAligned_ok (n : Nat) (halign : D.blockSize ∣ off ∨ p.length = 0)
    (hoff : off + p.length ≤ size) :
    ∃ c', writeAligned D p off n c = .ok (n + p.length, none) c' ∧
    Holds D contents size (splice off p data) c' := by
  obtain ⟨c₁, q, r, hp, hr, hnext, hloop, h₁⟩ := writeLoop_ok hD p.length n h halign hoff (le_refl _)
  have hlen : p.length = q.length + r.length := by rw [hp, length_append]
  unfold writeAligned
  rw [bind_ok hloop]
  by_cases hempty : r.length = 0
  · obtain rfl : r = [] := length_eq_zero_iff.mp hempty
    rw [append_nil] at hp
    refine ⟨c₁, ?_, hp ▸ h₁⟩
    rw [hp]
    rfl
  · have hblock : IsBlock D size (off + q.length) :=
      hD.isBlock (hnext.resolve_right hempty) (by omega)
    obtain ⟨c', hwrite, h'⟩ := writeBlock_ok hD h₁ hblock (Nat.zero_le _) r
    have hcopied : min (D.blockSize - 0) r.length = r.length := by omega
    rw [hcopied] at hwrite h'
    refine ⟨c', ?_, ?_⟩
    · refine (congrFun (if_neg hempty) c₁).trans ((bind_ok hwrite _).trans ?_)
      rw [hlen, ← Nat.add_assoc]
      rfl
    · rw [take_length, Nat.add_zero, splice_splice (by rw [h.1]; omega), ← hp] at h'
      exact h'

theorem writeAt_ok (hoff : off + p.length ≤ size) :
    ∃ c', writeAt D p off c = .ok (p.length, none) c' ∧
    Holds D contents size (splice off p data) c' := by
  unfold writeAt
  rw [bind_ok h.firstErr]
  dsimp only
  split
  next hrem =>
    have hwrite := writeAligned_ok hD h 0 (.inl (Nat.dvd_of_mod_eq_zero hrem)) hoff
    rwa [Nat.zero_add] at hwrite
  next hrem =>
    obtain ⟨hblock, hlt, hstart⟩ := hD.blockOf hoff hrem
    generalize off % D.blockSize = rem at *
    generalize off - rem = addr at *
    obtain ⟨c₁, hwrite, h₁⟩ := writeBlock_ok hD h hblock (le_of_lt hlt) p
    have hnext := hD.next_block hblock.1 hstart hlt p.length
    rw [Nat.min_comm] at hnext
    rw [hstart] at h₁
    generalize hn : min (D.blockSize - rem) p.length = n at *
    have hcopied : (p.take n).length = n := by
      rw [length_take]
      omega
    have hdrop : (p.drop n).length = p.length - n := length_drop ..
    obtain ⟨c', hrest, h'⟩ := writeAligned_ok hD h₁ n (hdrop ▸ hnext) (by omega)
    refine ⟨c', ?_, ?_⟩
    · refine (bind_ok hwrite _).trans (hrest.trans ?_)
      congr 2
      omega
    · have hsplice := @splice_splice _ data (p.take n) (p.drop n) off (by rw [hcopied, h.1]; omega)
      rw [hcopied, take_append_drop] at hsplice
      exact hsplice ▸ h'

theorem flush_ok {order : List Nat} (horder : order.Perm c.entries.keys) :
    ∃ c', flush D order c = .ok none c' ∧ Holds D contents size data c' ∧
    contents c'.bs.dev = data := by
  obtain ⟨c₁, hflush, hcaches, hlook⟩ := flush_all hD.faithful h.2 horder
  have h₁ : Holds D contents size data c₁ := ⟨h.1, hcaches⟩
  have hcontents : contents c₁.bs.dev = data := by
    have hlen : (contents c₁.bs.dev).length = data.length := hcaches.tracks.sound.2.trans h.1.symm
    refine eq_of_slices hD.blockSize hlen fun k hk => hlook _ (hD.isBlock (Nat.dvd_mul_left _ k) ?_)
    rw [hcaches.tracks.sound.2] at hk
    exact hk
  set c' : Conductor σ := { c₁ with bs := { c₁.bs with dev := (D.flush c₁.bs.dev).2 } }
  have hsame : contents c'.bs.dev = contents c₁.bs.dev := hD.flush c₁.bs.dev
  have h' : Holds D contents size data c' := by
    obtain ⟨hinv, hvalued, hsound, hkeys, hagrees, hgood⟩ := hcaches
    refine ⟨h.1,
      ⟨⟨hinv.linked.entry, hinv.linked.listed, hinv.linked.nodup, hinv.linked.old⟩, hinv.blank,
      hinv.sizes.congr rfl rfl rfl⟩, hvalued,
      ⟨hsound.1, by rw [hsame]; exact hsound.2⟩, hkeys, fun k hk => ?_, hgood⟩
    rw [hsame]
    exact hagrees k hk
  refine ⟨c', ?_, h', hsame.trans hcontents⟩
  refine (bind_ok h.firstErr _).trans ((bind_ok (onCache_ok hflush) _).trans
    ((bind_ok h₁.firstErr _).trans ?_))
  exact h'.firstErr

end Spec

section Runs
variable {σ : Type}

inductive Op where
  | readAt (len off : Nat)
  | writeAt (p : List UInt8) (off : Nat)
  | flush (order : List Nat)

inductive Reply where
  | read (bytes : List UInt8) (err : Option DevError)
  | wrote (n : Nat) (err : Option DevError)
  | flushed (err : Option DevError)

def Op.perform (D : BlockDevice σ) : Op → ConductorM σ Reply
  | .readAt len off => do
    let (bytes, err) ← Thinio.readAt D len off
    pure (.read bytes err)
  | .writeAt p off => do
    let (n, err) ← Thinio.writeAt D p off
    pure (.wrote n err)
  | .flush order => return .flushed (← Thinio.flush D order)

/-- The operation is inside the device; a flush meets each entry of the cache once. -/
def Op.Allowed (size : Nat) (c : Conductor σ) : Op → Prop
  | .readAt len off => off + len ≤ size
  | .writeAt p off => off + p.length ≤ size
  | .flush order => order.Perm c.entries.keys

def Op.apply (data : List UInt8) : Op → List UInt8
  | .writeAt p off => splice off p data
  | _ => data

def Op.reply (data : List UInt8) : Op → Reply
  | .readAt len off => .read (slice len off data) none
  | .writeAt p _ => .wrote p.length none
  | .flush _ => .flushed none

def bytesAfter (data : List UInt8) : List Op → List UInt8
  | [] => data
  | op :: ops => op.apply (bytesAfter data ops)

inductive Run (D : BlockDevice σ) (size : Nat) (c₀ : Conductor σ) : List Op → Conductor σ → Prop
  | start : Run D size c₀ [] c₀
  | step {ops : List Op} {c c' : Conductor σ} {r : Reply} (h : Run D size c₀ ops c)
      (op : Op) (hop : op.Allowed size c)
      (hok : op.perform D c = .ok r c') : Run D size c₀ (op :: ops) c'

variable {D : BlockDevice σ} {contents : σ → List UInt8} {size : Nat} {data : List UInt8}
  {c : Conductor σ}

theorem perform_ok (hD : Works D contents size) (h : Holds D contents size data c) {op : Op}
    (hop : op.Allowed size c) :
    ∃ c', op.perform D c = .ok (op.reply data) c' ∧ Holds D contents size (op.apply data) c' ∧
      ∀ order, op = .flush order → contents c'.bs.dev = data := by
  cases op with
  | readAt len off =>
    obtain ⟨c', hok, h'⟩ := readAt_ok hD h hop
    exact ⟨c', bind_ok hok _, h', nofun⟩
  | writeAt p off =>
    obtain ⟨c', hok, h'⟩ := writeAt_ok hD h hop
    exact ⟨c', bind_ok hok _, h', nofun⟩
  | flush order =>
    obtain ⟨c', hok, h', hdev⟩ := flush_ok hD h hop
    exact ⟨c', bind_ok hok _, h', fun _ _ => hdev⟩

theorem Run.holds (hD : Works D contents size) {c₀ : Conductor σ}
    (h₀ : Holds D contents size data c₀) {ops : List Op} (h : Run D size c₀ ops c) :
    Holds D contents size (bytesAfter data ops) c := by
  induction h with
  | start => exact h₀
  | step _ op hop hok ih =>
    obtain ⟨c', hok', h', _⟩ := perform_ok hD ih hop
    obtain ⟨_, rfl⟩ := EStateM.Result.ok.inj (hok'.symm.trans hok)
    exact h'

/-- The cache cannot be told from the device: in every run each operation returns, reads give the
bytes last written, and after a flush the device has them. -/
theorem conductor_transparent (hD : Works D contents size) {dev : σ}
    (hdev : (contents dev).length = size) {cacheSize : Nat} (hcache : D.blockSize ≤ cacheSize)
    {ops : List Op} (hrun : Run D size (newConductor D dev cacheSize) ops c) {op : Op}
    (hop : op.Allowed size c) :
    ∃ c', op.perform D c = .ok (op.reply (bytesAfter (contents dev) ops)) c' ∧
      ∀ order, op = .flush order → contents c'.bs.dev = bytesAfter (contents dev) ops := by
  have hsize : 1 ≤ cacheSize / D.blockSize := Nat.div_pos hcache hD.blockSize
  have hstart : Holds D contents size (contents dev) (newConductor D dev cacheSize) :=
    ⟨hdev, Caches.new hD.faithful hsize (⟨rfl, hdev⟩ : Healthy contents size ⟨dev, []⟩)⟩
  obtain ⟨c', hok, _, hflushed⟩ := perform_ok hD (hrun.holds hD hstart) hop
  exact ⟨c', hok, hflushed⟩

def memory (blockSize : Nat) : BlockDevice (List UInt8) where
  blockSize := blockSize
  readAt len off := fun s => (.ok (slice len off s), s)
  writeAt buf off := fun s => (.ok (), splice off buf s)
  flush := fun s => (.ok (), s)

theorem memory_works {blockSize size : Nat} (hpos : 0 < blockSize) (hwhole : blockSize ∣ size) :
    Works (memory blockSize) id size :=
  ⟨hpos, hwhole, fun s _ _ _ _ => ⟨s, rfl, rfl⟩, fun _ _ _ _ _ _ _ => ⟨_, rfl, rfl⟩, fun _ => rfl⟩

/-- Two bytes across the border of two blocks are written and read back with a cache of one
block. -/
theorem conductor_transparent_across :
    ∃ c, Run (memory 2) 4 (newConductor (memory 2) [1, 2, 3, 4] 2) [.writeAt [8, 9] 1] c ∧
    ∃ c', (Op.readAt 4 0).perform (memory 2) c = .ok (.read [1, 8, 9, 4] none) c' := by
  have hworks := memory_works (by decide : 0 < 2) (by decide : 2 ∣ 4)
  have hstart := @Run.start _ (memory 2) 4 (newConductor (memory 2) [1, 2, 3, 4] 2)
  obtain ⟨c, hwrite, _⟩ := conductor_transparent hworks rfl (le_refl 2) hstart
    (show (Op.writeAt [8, 9] 1).Allowed 4 _ from (by decide : 1 + 2 ≤ 4))
  have hrun := hstart.step (.writeAt [8, 9] 1) (by decide : 1 + 2 ≤ 4) hwrite
  obtain ⟨c', hread, _⟩ := conductor_transparent hworks rfl (le_refl 2) hrun
    (show (Op.readAt 4 0).Allowed 4 _ from (by decide : 0 + 4 ≤ 4))
  exact ⟨c, hrun, c', hread⟩

end Runs

end Garnet.Thinio
