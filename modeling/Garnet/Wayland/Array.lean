import Garnet.Wayland.RoundTrip

/-! An array of the wire protocol is a message without handles. One cursor serves for reading from
it and for writing to it. -/

namespace Garnet.Wayland
open List

variable {H α β : Type}

namespace Array

def fromVec (v : List UInt8) : Message H := ⟨⟨v, 0⟩, []⟩

def push : Arg H → EStateM Fault (Message H) Unit
  | .handle _ => throw (.error "Arrays cannot contain handles")
  | arg => Message.writeArg arg

def readArg (kind : ArgKind) : EStateM Fault (Message H) (Arg H) :=
  if kind = .handle then throw (.error "Arrays cannot contain handles") else Message.readArg kind

end Array

inductive ArrayCall (H : Type) where
  | push (arg : Arg H)
  | readArg (kind : ArgKind)

namespace ArrayCall

def exec : ArrayCall H → Message H → Except Fault (Option (Arg H)) × Message H
  | .push arg, m =>
    match Array.push arg m with
    | .ok _ m => (.ok none, m)
    | .error e m => (.error e, m)
  | .readArg kind, m =>
    match Array.readArg kind m with
    | .ok arg m => (.ok (some arg), m)
    | .error e m => (.error e, m)

/-- The call on a buffer that only grows at its end. Here the position is the one of the next
read. -/
def spec : ArrayCall H → Message H → Except Fault (Option (Arg H)) × Message H
  | .push arg, m =>
    (if arg.kind = .handle then .error (.error "Arrays cannot contain handles") else .ok none,
      { m with byteBuf := { m.byteBuf with bytes := m.byteBuf.bytes ++ arg.wire } })
  | .readArg kind, m => exec (.readArg kind) m

def run (step : ArrayCall H → Message H → Except Fault (Option (Arg H)) × Message H) :
    List (ArrayCall H) → Message H → List (Except Fault (Option (Arg H))) × Message H
  | [], m => ([], m)
  | call :: calls, m =>
    let (result, m) := step call m
    let (results, m) := run step calls m
    (result :: results, m)

def wire : ArrayCall H → List UInt8
  | .push arg => arg.wire
  | .readArg _ => []

/-- Nothing is read after a push, and at the first push all has been read and the length is a
multiple of four. -/
def Orderly : List (ArrayCall H) → Message H → Prop
  | [], _ => True
  | .readArg kind :: calls, m => Orderly calls (exec (.readArg kind) m).2
  | calls, m => m.byteBuf.pos = m.byteBuf.bytes.length ∧ 4 ∣ m.byteBuf.pos ∧
      ∀ call ∈ calls, ∃ arg, call = .push arg ∧ arg.Valid

end ArrayCall

section Reads
open Message

/-- However the call ends, the bytes stay. -/
def Reads (x : EStateM Fault (Message H) α) : Prop :=
  ∀ m, match x m with
    | .ok _ m' | .error _ m' => m'.byteBuf.bytes = m.byteBuf.bytes

theorem Reads.bind {x : EStateM Fault (Message H) α} {f : α → EStateM Fault (Message H) β}
    (hx : Reads x) (hf : ∀ a, Reads (f a)) : Reads (x >>= f) := by
  intro m
  have hm := hx m
  simp only [Bind.bind, EStateM.bind]
  cases h : x m with
  | ok a m' =>
    rw [h] at hm
    exact hm ▸ hf a m'
  | error e m' =>
    rw [h] at hm
    exact hm

theorem Reads.pure (a : α) : Reads (pure a : EStateM Fault (Message H) α) := fun _ => rfl

theorem Reads.throw (e : Fault) : Reads (throw e : EStateM Fault (Message H) α) := fun _ => rfl

theorem reads_position : Reads (position (H := H)) := fun _ => rfl

theorem reads_readExact (n : Nat) : Reads (readExact (H := H) n) := by
  intro m
  by_cases h : n ≤ m.byteBuf.bytes.length - m.byteBuf.pos
  · simp only [readExact, Cursor.readExact, if_pos h]
  · simp only [readExact, Cursor.readExact, if_neg h]

theorem reads_readU32 : Reads (readU32 (H := H)) := (reads_readExact 4).bind fun _ => .pure _

theorem reads_readI32 : Reads (readI32 (H := H)) := reads_readU32.bind fun _ => .pure _

theorem reads_readPadding (pos : Nat) : Reads (readPadding (H := H) pos) := by
  have hend : Reads (position >>= fun p => assert (H := H) (p % 4 = 0)) := by
    refine reads_position.bind fun p => ?_
    unfold assert
    split
    · exact .pure _
    · exact .throw _
  refine reads_position.bind fun p => ?_
  dsimp only
  split
  · exact (reads_readExact _).bind fun _ => hend
  · exact hend

theorem reads_readSlice (nullTerm : Bool) : Reads (readSlice (H := H) nullTerm) := by
  refine reads_position.bind fun pos => reads_readU32.bind fun len => ?_
  split
  · exact .pure _
  · have hend (vec : List UInt8) : Reads (readPadding (H := H) pos >>= fun _ => pure vec) :=
      (reads_readPadding pos).bind fun _ => .pure vec
    refine (reads_readExact _).bind fun vec => ?_
    dsimp only
    split
    · refine Reads.bind ?_ hend
      unfold popTerm
      split
      · split
        · exact .throw _
        · exact .pure _
      · exact .throw _
    · exact hend vec

theorem reads_readArg (kind : ArgKind) : Reads (Array.readArg (H := H) kind) := by
  unfold Array.readArg
  split
  · exact .throw _
  · cases kind with
    | int | fixed => exact reads_readI32.bind fun _ => .pure _
    | uint | object | newId => exact reads_readU32.bind fun _ => .pure _
    | string | array => exact (reads_readSlice _).bind fun _ => .pure _
    | handle => contradiction

end Reads

namespace ArrayCall
open Message

theorem exec_readArg_bytes (kind : ArgKind) (m : Message H) :
    (exec (.readArg kind) m).2.byteBuf.bytes = m.byteBuf.bytes := by
  have h := reads_readArg kind m
  unfold exec
  split at h <;> rename_i heq <;> simp only [heq, h]

variable {bytes : List UInt8}

theorem exec_push {hs : List H} {arg : Arg H} (hdvd : 4 ∣ bytes.length) (harg : arg.Valid)
    (pos : Nat) :
    exec (.push arg) (atEnd bytes hs) =
    ((spec (.push arg) (atPos bytes pos hs)).1, atEnd (bytes ++ arg.wire) hs) := by
  have hwrite : writeArg arg (atEnd bytes hs) = _ := writeArg_end hdvd harg
  cases arg with
  | handle h =>
    rw [Arg.wire, append_nil]
    rfl
  | int | uint | fixed | string | object | newId | array =>
    simp only [Arg.handles, append_nil] at hwrite
    simp [exec, Array.push, hwrite, spec, Arg.kind]

variable {calls : List (ArrayCall H)}

theorem run_pushes (hcalls : ∀ call ∈ calls, ∃ arg, call = .push arg ∧ arg.Valid)
    (hdvd : 4 ∣ bytes.length) (hs : List H) (pos : Nat) :
    (run exec calls (atEnd bytes hs)).1 = (run spec calls (atPos bytes pos hs)).1 ∧
      (run exec calls (atEnd bytes hs)).2.byteBuf.bytes = bytes ++ calls.flatMap wire := by
  induction calls generalizing bytes with
  | nil => exact ⟨rfl, (append_nil bytes).symm⟩
  | cons call calls ih =>
    obtain ⟨⟨arg, rfl, harg⟩, hmore⟩ := forall_mem_cons.mp hcalls
    obtain ⟨hresults, hbytes⟩ := ih hmore (arg.append_wire_dvd hdvd)
    simp only [run, exec_push hdvd harg pos, hresults, hbytes, flatMap_cons, wire, append_assoc,
      and_true]
    rfl

theorem run_orderly {m : Message H} (h : Orderly calls m) :
    (run exec calls m).1 = (run spec calls m).1 ∧
      (run exec calls m).2.byteBuf.bytes = m.byteBuf.bytes ++ calls.flatMap wire := by
  induction calls generalizing m with
  | nil => exact ⟨rfl, (append_nil _).symm⟩
  | cons call calls ih =>
    cases call with
    | readArg kind =>
      obtain ⟨hresults, hbytes⟩ := ih h
      simp only [run, spec, hresults, hbytes, exec_readArg_bytes, flatMap_cons, wire, nil_append,
        and_self]
    | push arg =>
      obtain ⟨⟨bytes, pos⟩, hs⟩ := m
      obtain ⟨hpos, hdvd, hcalls⟩ := h
      change pos = bytes.length at hpos
      subst hpos
      exact run_pushes hcalls hdvd hs bytes.length

/-- An array on which the calls are orderly is a buffer that grows at its end and has a position for
the reads. -/
theorem array_is_buffer (v : List UInt8) (calls : List (ArrayCall H))
    (h : Orderly calls (Array.fromVec v)) :
    (run exec calls (Array.fromVec v)).1 = (run spec calls (Array.fromVec v)).1 ∧
      (run exec calls (Array.fromVec v)).2.byteBuf.bytes = v ++ calls.flatMap wire :=
  run_orderly h

theorem array_is_buffer_read_first :
    (run exec [.readArg .uint, .push (.uint 2)]
      (Array.fromVec [1, 0, 0, 0] : Message Unit)).2.byteBuf.bytes =
      [1, 0, 0, 0] ++ ([.readArg .uint, .push (.uint 2)] : List (ArrayCall Unit)).flatMap wire := by
  refine (array_is_buffer [1, 0, 0, 0] [.readArg .uint, .push (.uint 2)]
    ⟨rfl, ⟨1, rfl⟩, fun call hcall => ?_⟩).2
  exact ⟨_, mem_singleton.mp hcall, trivial⟩

/-- A push to an array that was not read overwrites its bytes, and a read after a push finds
nothing. -/
theorem array_cursor_shared :
    (run exec [.push (.uint 2)] (Array.fromVec [1, 0, 0, 0] : Message Unit)).2.byteBuf.bytes =
      [2, 0, 0, 0] ∧
      ((run exec [.push (.uint 1), .readArg .uint] (Array.fromVec [] : Message Unit)).1.map
        (·.toOption.isSome)) =
        [true, false] := by
  decide +kernel

end ArrayCall

end Garnet.Wayland
