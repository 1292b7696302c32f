import OsLabs.Fat.Layout

/-! # Transfers on a device whose calls fall short

`full_pwrite` and `full_pread` for every sequence of results of the calls they issue.
`requests io n pos offset` are the calls of a transfer of `n` bytes, and `Uninterrupted io n` says that
none of them is interrupted before the transfer ends; a transfer then moves exactly the prefix it
reports. An interrupted call is not repeated: the next one starts a byte earlier, in the buffer and on
the device. -/

namespace OsLabs.Fat

/-! ## The calls of a transfer -/

/-- A call that fails with `EINTR`. -/
def IoResult.interrupted : IoResult := .fail 3

/-- A call of `pread` or `pwrite`: its place in the buffer, the bytes it asks for, and its offset. -/
structure Request where
  pos : Int
  count : Int
  offset : Int
  deriving DecidableEq, Repr

/-- What the loops subtract from the bytes remaining after a call that asked for `n` bytes; `none` when
they end. -/
def IoResult.moved (n : Int) : IoResult → Option Int
  | .full => some n
  | .short k => if k = 0 then none else some (min (k : Int) n)
  | .fail e => if (e : Int) + 1 = eintr then some (-1) else none

/-- The calls that the loops of `full_pread` and `full_pwrite` issue. A call at a negative offset fails
without reaching the device. -/
def requests : List IoResult → Int → Int → Int → List Request
  | [], n, pos, offset => if n = 0 then [] else [⟨pos, n, offset⟩]
  | r :: rest, n, pos, offset =>
      if n = 0 then []
      else ⟨pos, n, offset⟩ ::
        if offset < 0 then []
        else
          match r.moved n with
          | none => []
          | some b => requests rest (n - b) (pos + b) (offset + b)

/-- The offsets and lengths of the calls of `pwrite` so far, the last one first. -/
def State.issued (s : State) : List (Nat × Nat) := s.dev.writes.map fun w => (w.offset, w.count)

/-- The calls among some requests that reach the device, the last one first. -/
def issuedBy (reqs : List Request) : List (Nat × Nat) :=
  ((reqs.filter fun q => 0 ≤ q.offset).map fun q => (q.offset.toNat, q.count.toNat)).reverse

/-- Memory after a call of `pread` with this result, on a device with these bytes. -/
def Request.load (byte : Nat → UInt8) (q : Request) (r : IoResult) (mem : Int → UInt8) : Int → UInt8 :=
  if q.offset < 0 then mem
  else storeBytes mem q.pos
    ((List.range ((r.moved q.count).getD 0).toNat).map fun i => byte (q.offset.toNat + i))

/-- Memory after the calls of `pread`, in this order. -/
def loadAll (byte : Nat → UInt8) : List IoResult → List Request → (Int → UInt8) → Int → UInt8
  | _, [], mem => mem
  | [], q :: reqs, mem => loadAll byte [] reqs (q.load byte .full mem)
  | r :: io, q :: reqs, mem => loadAll byte io reqs (q.load byte r mem)

/-- An interrupted call is followed by the same call. -/
def RetriesSame (io : List IoResult) (reqs : List Request) : Prop :=
  ∀ (i : Nat) (q : Request), reqs[i]? = some q → 0 ≤ q.offset → io[i]? = some .interrupted → reqs[i + 1]? = some q

/-- No call of a transfer of `n` bytes is interrupted. -/
def Uninterrupted : List IoResult → Nat → Prop
  | [], _ => True
  | .full :: _, _ => True
  | .short k :: rest, n => k = 0 ∨ n ≤ k ∨ Uninterrupted rest (n - k)
  | .fail e :: _, n => n = 0 ∨ e ≠ 3

/-- The bytes that an uninterrupted transfer of `n` bytes moves, and the device results it leaves. -/
def transferred : List IoResult → Nat → Nat × List IoResult
  | [], n => (n, [])
  | r :: rest, n =>
      if n = 0 then (0, r :: rest)
      else
        match r with
        | .full => (n, rest)
        | .short k =>
            if k = 0 then (0, rest)
            else if n ≤ k then (n, rest)
            else (k + (transferred rest (n - k)).1, (transferred rest (n - k)).2)
        | .fail _ => (0, rest)

/-- From `s` to `s'` only the device, its results and the error number changed. -/
def OnlyDevice (s s' : State) : Prop :=
  s' = { s with dev := s'.dev, io := s'.io, errno := s'.errno }

/-- The state after an uninterrupted transfer of `n` bytes with the device results `io`: a transfer of
all bytes leaves the error number alone. -/
structure AfterTransfer (io : List IoResult) (n : Nat) (s s' : State) : Prop where
  io_eq : s'.io = (transferred io n).2
  only : OnlyDevice s s'
  errno : (transferred io n).1 = n → s'.errno = s.errno

/-- `full_pwrite` of `count` bytes from position 0 of `mem` writes exactly the prefix it reports, and
repeats the calls that are interrupted; its calls are those of `requests`. -/
def PwriteOk (mem : Int → UInt8) (count : Nat) (offset : Int) (s : State) : Prop :=
  ∃ r s', fullPwrite mem count offset s = .ok r s' ∧ 0 ≤ r ∧ r ≤ count ∧
    (∀ i : Nat, s'.dev.byte i =
      if offset ≤ i ∧ i < offset + r then mem (i - offset) else s.dev.byte i) ∧
    s'.issued = issuedBy (requests s.io count 0 offset) ++ s.issued ∧
    RetriesSame s.io (requests s.io count 0 offset)

/-- `full_pread` of `count` bytes to position 0 of `mem` reads exactly the prefix it reports, touches
no byte outside the buffer, and repeats the calls that are interrupted; its calls, which load the memory,
are those of `requests`. -/
def PreadOk (mem : Int → UInt8) (count : Nat) (offset : Int) (s : State) : Prop :=
  ∃ r mem' s', fullPread mem count offset s = .ok (r, mem') s' ∧ 0 ≤ r ∧ r ≤ count ∧
    (∀ i, 0 ≤ i → i < r → mem' i = s.dev.byte (offset + i).toNat) ∧
    (∀ i, i < 0 ∨ count ≤ i → mem' i = mem i) ∧ s'.dev = s.dev ∧
    mem' = loadAll s.dev.byte s.io (requests s.io count 0 offset) mem ∧
    RetriesSame s.io (requests s.io count 0 offset)

/-! ## Interruptions -/

section Requests

variable {io : List IoResult} {r : IoResult} {n : Nat} {pos offset : Int}

/-- Error 3 is `EINTR`, the one that the loops go on after. -/
theorem eq_interrupted_iff {e : Nat} : (e : Int) + 1 = eintr ↔ IoResult.fail e = .interrupted := by
  unfold eintr IoResult.interrupted
  constructor
  · intro h
    rw [show e = 3 by omega]
  · rintro ⟨⟩
    rfl

/-- A transfer of no bytes makes no call. -/
theorem requests_zero (io : List IoResult) (pos offset : Int) : requests io 0 pos offset = [] := by
  cases io <;> simp [requests]

/-- The first call of a transfer. -/
theorem requests_head (hn : n ≠ 0) (io : List IoResult) (pos offset : Int) :
    ∃ rest, requests io n pos offset = ⟨pos, n, offset⟩ :: rest := by
  cases io with
  | nil => exact ⟨[], by simp [requests, hn]⟩
  | cons r rest => exact ⟨_, by rw [requests, if_neg (by omega)]⟩

/-- A call after which the loop ends. -/
theorem requests_last {n : Int} (hn : n ≠ 0) (h : offset < 0 ∨ r.moved n = none) (rest : List IoResult) :
    requests (r :: rest) n pos offset = [⟨pos, n, offset⟩] := by
  rw [requests, if_neg hn]
  congr 1
  split_ifs with hneg
  · rfl
  · rw [h.resolve_left hneg]

/-- A call after which the loop goes on. -/
theorem requests_more {n b : Int} (hn : n ≠ 0) (hoff : 0 ≤ offset) (h : r.moved n = some b)
    (rest : List IoResult) : requests (r :: rest) n pos offset =
      ⟨pos, n, offset⟩ :: requests rest (n - b) (pos + b) (offset + b) := by
  rw [requests, if_neg hn, if_neg (by omega), h]

/-- A short call that leaves bytes to transfer. -/
theorem requests_short {k : Nat} (hk : k ≠ 0) (hlt : k < n) (hoff : 0 ≤ offset) (pos : Int)
    (rest : List IoResult) : requests (.short k :: rest) n pos offset =
      ⟨pos, n, offset⟩ :: requests rest ((n - k : Nat) : Int) (pos + k) (offset + k) := by
  have hmoved : (IoResult.short k).moved n = some (k : Int) := by
    rw [IoResult.moved, if_neg hk, min_eq_left (by omega)]
  rw [requests_more (by omega) hoff hmoved, Nat.cast_sub (by omega)]

/-- An uninterrupted transfer has no call to repeat. -/
theorem retriesSame_of_uninterrupted (h : Uninterrupted io n) :
    RetriesSame io (requests io n pos offset) := by
  induction io generalizing n pos offset with
  | nil =>
      intro i q _ _ hio
      simp at hio
  | cons r rest ih =>
      intro i q hq hoff hio
      by_cases hn : n = 0
      · subst hn
        rw [Nat.cast_zero, requests_zero] at hq
        cases hq
      · -- only the first call can have been the last
        have hlast (hl : requests (r :: rest) n pos offset = [⟨pos, n, offset⟩]) : i = 0 := by
          rw [hl] at hq
          cases i with
          | zero => rfl
          | succ i => cases hq
        cases i with
        | zero =>
            cases hio
            exact absurd rfl (h.resolve_left hn)
        | succ i =>
            by_cases hneg : offset < 0
            · cases hlast (requests_last (by omega) (.inl hneg) rest)
            · cases r with
              | full =>
                  rw [requests_more (by omega) (by omega) rfl, Int.sub_self, requests_zero] at hq
                  cases hq
              | fail e =>
                  have hne : ¬ (e : Int) + 1 = eintr := fun heq => by
                    cases eq_interrupted_iff.mp heq
                    exact absurd rfl (h.resolve_left hn)
                  cases hlast (requests_last (by omega) (.inr (by rw [IoResult.moved, if_neg hne])) rest)
              | short k =>
                  by_cases hk : k = 0
                  · cases hlast (requests_last (by omega) (.inr (by rw [IoResult.moved, if_pos hk])) rest)
                  · by_cases hle : n ≤ k
                    · have hmoved : (IoResult.short k).moved n = some (n : Int) := by
                        rw [IoResult.moved, if_neg hk, min_eq_right (by omega)]
                      rw [requests_more (by omega) (by omega) hmoved, Int.sub_self, requests_zero] at hq
                      cases hq
                    · have hrest : Uninterrupted rest (n - k) := (h.resolve_left hk).resolve_left hle
                      rw [requests_short hk (by omega) (by omega) pos] at hq ⊢
                      exact ih hrest i q hq hoff hio

/-- An interrupted call is not repeated. -/
theorem not_retriesSame (hoff : 0 ≤ offset) (h : ¬ Uninterrupted io n) :
    ¬ RetriesSame io (requests io n pos offset) := by
  induction io generalizing n pos offset with
  | nil => exact absurd trivial h
  | cons r rest ih =>
      intro hsame
      cases r with
      | full => exact h trivial
      | fail e =>
          simp only [Uninterrupted, not_or, not_not] at h
          obtain ⟨hn, rfl⟩ := h
          obtain ⟨more, hmore⟩ := requests_head (n := n + 1) (by omega) rest (pos - 1) (offset - 1)
          have hreqs : requests (.fail 3 :: rest) n pos offset =
              ⟨pos, n, offset⟩ :: requests rest ((n + 1 : Nat) : Int) (pos - 1) (offset - 1) := by
            rw [requests_more (by omega) hoff (show (IoResult.fail 3).moved n = some (-1) from rfl),
              show (n : Int) - -1 = ((n + 1 : Nat) : Int) by omega]
            rfl
          have hnext := hsame 0 ⟨pos, n, offset⟩ (by rw [hreqs]; rfl) hoff rfl
          rw [hreqs, hmore] at hnext
          simp at hnext
      | short k =>
          simp only [Uninterrupted, not_or, Nat.not_le] at h
          obtain ⟨hk, hlt, hrest⟩ := h
          have hreqs := requests_short hk hlt hoff pos rest
          have hsame' : RetriesSame rest (requests rest ((n - k : Nat) : Int) (pos + k) (offset + k)) := by
            intro i q hq hq' hio
            have hnext := hsame (i + 1) q (by rw [hreqs]; exact hq) hq' hio
            rwa [hreqs] at hnext
          exact ih (by omega) hrest hsame'

end Requests

/-! ## The bytes moved -/

section Transferred

variable {s s' s'' : State} {io : List IoResult} {n k : Nat}

/-- A transfer leaves the FAT in memory alone. -/
theorem OnlyDevice.table (h : OnlyDevice s s') : s'.table = s.table := by
  rw [show s' = _ from h]

/-- A transfer changes no file in memory. -/
theorem OnlyDevice.files (h : OnlyDevice s s') : s'.files = s.files := by
  rw [show s' = _ from h]
  rfl

/-- Nothing moves in a transfer of no bytes. -/
theorem transferred_zero (io : List IoResult) : transferred io 0 = (0, io) := by
  cases io <;> rfl

/-- A short call is followed by a transfer of the rest. -/
theorem transferred_short (hk : k ≠ 0) (hlt : k < n) (rest : List IoResult) :
    transferred (.short k :: rest) n =
      (k + (transferred rest (n - k)).1, (transferred rest (n - k)).2) := by
  rw [transferred, if_neg (by omega), if_neg hk, if_neg (by omega)]

/-- A short call that covers what is left ends the transfer. -/
theorem transferred_short_all (hn : n ≠ 0) (hle : n ≤ k) (rest : List IoResult) :
    transferred (.short k :: rest) n = (n, rest) := by
  rw [transferred, if_neg hn, if_neg (by omega), if_pos hle]

/-- A whole call ends the transfer. -/
theorem transferred_full (hn : n ≠ 0) (rest : List IoResult) :
    transferred (.full :: rest) n = (n, rest) := by
  rw [transferred, if_neg hn]

/-- A call that fails ends the transfer, and moves nothing. -/
theorem transferred_fail (hn : n ≠ 0) (e : Nat) (rest : List IoResult) :
    transferred (.fail e :: rest) n = (0, rest) := by
  rw [transferred, if_neg hn]

/-- A call that moves nothing ends the transfer. -/
theorem transferred_short_zero (hn : n ≠ 0) (rest : List IoResult) :
    transferred (.short 0 :: rest) n = (0, rest) := by
  rw [transferred, if_neg hn]
  rfl

/-- A transfer moves no more bytes than it is asked for. -/
theorem transferred_le (io : List IoResult) (n : Nat) : (transferred io n).1 ≤ n := by
  induction io generalizing n with
  | nil => exact Nat.le_refl n
  | cons r rest ih =>
      by_cases hn : n = 0
      · subst hn
        exact Nat.le_refl 0
      cases r with
      | full => rw [transferred_full hn]
      | fail e =>
          rw [transferred_fail hn]
          exact Nat.zero_le n
      | short k =>
          by_cases hk : k = 0
          · subst hk
            rw [transferred_short_zero hn]
            exact Nat.zero_le n
          · by_cases hle : n ≤ k
            · rw [transferred_short_all hn hle]
            · rw [transferred_short hk (by omega)]
              have := ih (n - k)
              simp only
              omega

end Transferred

/-! ## Device calls -/

section Calls

variable {s t : State} {r : IoResult} {rest : List IoResult}

/-- The next call takes the first result of the list. -/
theorem nextIoResult_cons (h : s.io = r :: rest) : nextIoResult s = .ok r { s with io := rest } := by
  unfold nextIoResult
  rw [Cmd.get_bind, h]
  rfl

/-- Behind the list every call is carried out whole. -/
theorem nextIoResult_nil (h : s.io = []) : nextIoResult s = .ok .full s := by
  unfold nextIoResult
  rw [Cmd.get_bind, h]
  rfl

/-- A whole call stores all its bytes. -/
theorem pwriteAt_full (data : List UInt8) (offset : Nat) (h : nextIoResult s = .ok .full t) :
    pwriteAt data offset s =
      .ok (data.length : Int) { t with dev := t.dev.write offset data.length data } := by
  unfold pwriteAt pwrite
  rw [if_neg (by omega), Int.toNat_natCast, Cmd.bind_ok h]
  rfl

/-- A short call stores a prefix. -/
theorem pwriteAt_short {k : Nat} (data : List UInt8) (offset : Nat)
    (h : nextIoResult s = .ok (.short k) t) :
    pwriteAt data offset s = .ok ((data.take k).length : Int)
      { t with dev := t.dev.write offset data.length (data.take k) } := by
  unfold pwriteAt pwrite
  rw [if_neg (by omega), Int.toNat_natCast, Cmd.bind_ok h]
  rfl

/-- A call that fails sets the error number, and may have stored a prefix. -/
theorem pwriteAt_fail {e : Nat} (data : List UInt8) (offset : Nat)
    (h : nextIoResult s = .ok (.fail e) t) :
    pwriteAt data offset s =
      .ok (-1) { t with dev := t.dev.write offset data.length [], errno := (e : Int) + 1 } := by
  unfold pwriteAt pwrite
  rw [if_neg (by omega), Int.toNat_natCast, Cmd.bind_ok h]
  rfl

/-- The bytes a call reads. -/
def State.bytesAt (s : State) (offset count : Nat) : List UInt8 :=
  (List.range count).map fun i => s.dev.byte (offset + i)

/-- A whole call of `pread` reads all the bytes. -/
theorem preadAt_full (count offset : Nat) (h : nextIoResult s = .ok .full t) :
    preadAt count offset s = .ok (some (t.bytesAt offset count)) t := by
  unfold preadAt pread
  rw [if_neg (by omega), Int.toNat_natCast, Cmd.bind_ok h]
  rfl

/-- A short call of `pread` reads a prefix. -/
theorem preadAt_short {k : Nat} (count offset : Nat) (h : nextIoResult s = .ok (.short k) t) :
    preadAt count offset s = .ok (some (t.bytesAt offset (min k count))) t := by
  unfold preadAt pread
  rw [if_neg (by omega), Int.toNat_natCast, Cmd.bind_ok h]
  rfl

/-- A call of `pread` that fails sets the error number. -/
theorem preadAt_fail {e : Nat} (count offset : Nat) (h : nextIoResult s = .ok (.fail e) t) :
    preadAt count offset s = .ok none { t with errno := (e : Int) + 1 } := by
  unfold preadAt pread
  rw [if_neg (by omega), Int.toNat_natCast, Cmd.bind_ok h]
  rfl

end Calls

/-! ## Writing -/

section Write

variable {s s' t : State} {mem : Int → UInt8} {n pos offset m b fuel : Nat}

/-- The `m` bytes of memory from `pos` on are on the device from `offset` on, and nothing else
changed there. -/
def Stored (mem : Int → UInt8) (pos offset m : Nat) (s s' : State) : Prop :=
  ∀ i, s'.dev.byte i =
    if offset ≤ i ∧ i < offset + m then mem ((pos + (i - offset) : Nat) : Int) else s.dev.byte i

/-- No bytes are stored when the device is as it was. -/
theorem Stored.nothing (h : s'.dev.byte = s.dev.byte) : Stored mem pos offset 0 s s' := by
  intro i
  rw [if_neg (by omega), h]

/-- The bytes of one call and those of the calls after it. -/
theorem Stored.append (h : Stored mem pos offset b s t)
    (h' : Stored mem (pos + b) (offset + b) m t s') : Stored mem pos offset (b + m) s s' := by
  intro i
  rw [h' i, h i]
  by_cases hi : offset + b ≤ i ∧ i < offset + b + m
  · rw [if_pos hi, if_pos ⟨by omega, by omega⟩]
    congr 2
    omega
  · rw [if_neg hi]
    by_cases hi' : offset ≤ i ∧ i < offset + b
    · rw [if_pos hi', if_pos ⟨by omega, by omega⟩]
    · rw [if_neg hi', if_neg (by omega)]

/-- A call that writes the first `b` bytes it was given. -/
theorem stored_take (mem : Int → UInt8) (pos offset count : Nat) (hb : b ≤ n) (ht : t.dev = s.dev) :
    Stored mem pos offset b s
      { t with dev := t.dev.write offset count ((memBytes mem pos n).take b) } := by
  intro i
  have hlen : ((memBytes mem pos n).take b).length = b := by
    rw [List.length_take, length_memBytes, Nat.min_eq_left hb]
  show (if offset ≤ i ∧ i < offset + ((memBytes mem pos n).take b).length then
    ((memBytes mem pos n).take b).getD (i - offset) 0 else t.dev.byte i) = _
  rw [hlen, ht]
  split_ifs with hi
  · rw [List.getD_eq_getElem?_getD, List.getElem?_take_of_lt (by omega), memBytes,
      List.getElem?_map, List.getElem?_range (by omega)]
    simp
  · rfl

/-- A call that writes some bytes. -/
theorem fullPwriteLoop_moved (hb : 0 < b) (hbn : b ≤ n)
    (hcall : pwriteAt (memBytes mem pos n) offset s = .ok (b : Int) t) :
    fullPwriteLoop mem (fuel + 1) n pos offset s =
      fullPwriteLoop mem fuel ((n - b : Nat) : Int) ((pos + b : Nat) : Int) ((offset + b : Nat) : Int)
        t := by
  rw [fullPwriteLoop, if_neg (by omega), Int.toNat_natCast, Cmd.bind_ok hcall, if_neg (by omega),
    if_neg (by omega), Nat.cast_sub hbn, Nat.cast_add, Nat.cast_add]

/-- A call that writes nothing and is not interrupted. -/
theorem fullPwriteLoop_ended (fuel : Nat) (hn : n ≠ 0) {v : Int}
    (hcall : pwriteAt (memBytes mem pos n) offset s = .ok v t)
    (hv : v = 0 ∨ v < 0 ∧ t.errno ≠ eintr) :
    ∃ u, fullPwriteLoop mem (fuel + 1) n pos offset s = .ok (n : Int) u ∧
      u = { t with errno := u.errno } := by
  rw [fullPwriteLoop, if_neg (by omega), Int.toNat_natCast, Cmd.bind_ok hcall]
  obtain rfl | ⟨hneg, herr⟩ := hv
  · exact ⟨{ t with errno := eio }, by rw [if_pos rfl]; rfl, rfl⟩
  · refine ⟨t, ?_, rfl⟩
    have hgo : (do
        let errno ← getErrno
        if errno = eintr then fullPwriteLoop mem fuel (n - v) (pos + v) (offset + v)
        else pure (n : Int) : M Int) t = .ok (n : Int) t := by
      have herrno : getErrno t = .ok t.errno t := rfl
      rw [Cmd.bind_ok herrno, if_neg herr]
      rfl
    rw [if_neg (by omega), if_pos hneg]
    exact hgo

/-- The loop of `full_pwrite` ends when nothing is left to write. -/
theorem fullPwriteLoop_zero (mem : Int → UInt8) (fuel : Nat) (pos offset : Int) (s : State) :
    fullPwriteLoop mem (fuel + 1) 0 pos offset s = .ok 0 s := by
  rw [fullPwriteLoop, if_pos rfl]
  rfl

/-- A call that writes everything ends the loop. -/
theorem fullPwriteLoop_all (fuel : Nat) (hn : n ≠ 0)
    (hcall : pwriteAt (memBytes mem pos n) offset s = .ok (n : Int) t) :
    fullPwriteLoop mem (fuel + 2) n pos offset s = .ok 0 t := by
  rw [fullPwriteLoop_moved (by omega) (Nat.le_refl n) hcall, Nat.sub_self]
  exact fullPwriteLoop_zero _ _ _ _ _

/-- An uninterrupted loop writes the bytes it does not report as remaining. -/
theorem fullPwriteLoop_uninterrupted {io : List IoResult} (mem : Int → UInt8) (pos offset : Nat) (hio : s.io = io)
    (hfuel : io.length + 2 ≤ fuel) (h : Uninterrupted io n) : ∃ s',
      fullPwriteLoop mem fuel n pos offset s = .ok ((n - (transferred io n).1 : Nat) : Int) s' ∧
      Stored mem pos offset (transferred io n).1 s s' ∧ AfterTransfer io n s s' := by
  induction io generalizing s fuel n pos offset with
  | nil =>
      obtain ⟨fuel, rfl⟩ : ∃ f, fuel = f + 2 := ⟨fuel - 2, by omega⟩
      rw [transferred, Nat.sub_self]
      by_cases hn : n = 0
      · subst hn
        exact ⟨s, fullPwriteLoop_zero _ _ _ _ _, .nothing rfl, hio, rfl, fun _ => rfl⟩
      · have hcall := pwriteAt_full (memBytes mem pos n) offset (nextIoResult_nil hio)
        have hstored := stored_take (s := s) (t := s) mem pos offset (memBytes mem pos n).length
          (Nat.le_refl n) rfl
        rw [List.take_of_length_le (Nat.le_of_eq (length_memBytes _ _ _))] at hstored
        rw [length_memBytes] at hcall hstored
        exact ⟨_, fullPwriteLoop_all fuel hn hcall, hstored, hio, rfl, fun _ => rfl⟩
  | cons r rest ih =>
      simp only [List.length_cons] at hfuel
      obtain ⟨fuel, rfl⟩ : ∃ f, fuel = f + 2 := ⟨fuel - 2, by omega⟩
      have hnext := nextIoResult_cons hio
      by_cases hn : n = 0
      · subst hn
        rw [transferred_zero]
        exact ⟨s, fullPwriteLoop_zero _ _ _ _ _, .nothing rfl, by rw [hio, transferred_zero], rfl,
          fun _ => rfl⟩
      have hpart (b : Nat) (hb : b ≤ n) := stored_take (s := s) (t := { s with io := rest }) mem pos
        offset n hb rfl
      cases r with
      | full =>
          have hcall := pwriteAt_full (memBytes mem pos n) offset hnext
          have hstored := hpart n (Nat.le_refl n)
          rw [List.take_of_length_le (Nat.le_of_eq (length_memBytes _ _ _))] at hstored
          rw [length_memBytes] at hcall
          have hall := transferred_full hn rest
          rw [hall, Nat.sub_self]
          exact ⟨_, fullPwriteLoop_all fuel hn hcall, hstored, by rw [hall], rfl, fun _ => rfl⟩
      | fail e =>
          have hne : (e : Int) + 1 ≠ eintr := fun heq => by
            cases eq_interrupted_iff.mp heq
            exact absurd rfl (h.resolve_left hn)
          have hcall := pwriteAt_fail (memBytes mem pos n) offset hnext
          rw [length_memBytes] at hcall
          obtain ⟨s', hrun, hs'⟩ := fullPwriteLoop_ended (fuel + 1) hn hcall (.inr ⟨by decide, hne⟩)
          have hnone := transferred_fail hn e rest
          have hstored := hpart 0 (Nat.zero_le n)
          rw [hnone]
          refine ⟨s', hrun, fun i => ?_, by rw [hnone, hs'], by rw [hs']; rfl, fun h0 => ?_⟩
          · rw [hs']
            exact hstored i
          · rw [hnone] at h0
            exact absurd h0.symm hn
      | short k =>
          have hcall := pwriteAt_short (memBytes mem pos n) offset hnext
          rw [List.length_take, length_memBytes] at hcall
          by_cases hk : k = 0
          · subst hk
            rw [Nat.zero_min] at hcall
            obtain ⟨s', hrun, hs'⟩ := fullPwriteLoop_ended (fuel + 1) hn hcall (.inl rfl)
            have hnone := transferred_short_zero hn rest
            have hstored := hpart 0 (Nat.zero_le n)
            rw [hnone]
            refine ⟨s', hrun, fun i => ?_, by rw [hnone, hs'], by rw [hs']; rfl, fun h0 => ?_⟩
            · rw [hs']
              exact hstored i
            · rw [hnone] at h0
              exact absurd h0.symm hn
          · by_cases hle : n ≤ k
            · -- everything is written, and the loop ends
              rw [Nat.min_eq_right hle, List.take_of_length_le (by rw [length_memBytes]; exact hle)]
                at hcall
              have hstored := hpart n (Nat.le_refl n)
              rw [List.take_of_length_le (Nat.le_of_eq (length_memBytes _ _ _))] at hstored
              have hall := transferred_short_all hn hle rest
              rw [hall, Nat.sub_self]
              exact ⟨_, fullPwriteLoop_all fuel hn hcall, hstored, by rw [hall], rfl, fun _ => rfl⟩
            · rw [Nat.min_eq_left (by omega)] at hcall
              have hrest : Uninterrupted rest (n - k) := (h.resolve_left hk).resolve_left hle
              obtain ⟨s', hrun, hstored', hafter⟩ := ih (s := { s with
                  io := rest
                  dev := s.dev.write offset n ((memBytes mem pos n).take k) })
                (pos + k) (offset + k) rfl (show rest.length + 2 ≤ fuel + 1 by omega) hrest
              have hboth := transferred_short hk (Nat.lt_of_not_le hle) rest
              rw [hboth]
              refine ⟨s', ?_, (hpart k (Nat.le_of_not_le hle)).append hstored',
                by rw [hboth, hafter.io_eq], hafter.only, fun hall => hafter.errno ?_⟩
              · rw [fullPwriteLoop_moved (by omega) (Nat.le_of_not_le hle) hcall, hrun,
                  Nat.sub_add_eq]
              · rw [hboth] at hall
                simp only at hall
                omega

end Write

/-! ## The calls issued -/

section Issued

variable {s t : State} {mem : Int → UInt8} {fuel : Nat} {n b pos offset : Int}

/-- A call that reaches the device is the one issued first among those to come. -/
theorem issuedBy_cons (hoff : 0 ≤ offset) (reqs : List Request) :
    issuedBy (⟨pos, n, offset⟩ :: reqs) = issuedBy reqs ++ [(offset.toNat, n.toNat)] := by
  simp [issuedBy, hoff]

/-- A call that reaches the device, and what the loop makes of its result. -/
theorem pwriteAt_moved {r : IoResult} {rest : List IoResult} (mem : Int → UInt8) (pos : Int)
    (hio : s.io = r :: rest) (hn : 0 < n) (hoff : 0 ≤ offset) :
    ∃ v t, pwriteAt (memBytes mem pos n.toNat) offset s = .ok v t ∧
      t.io = rest ∧ t.issued = (offset.toNat, n.toNat) :: s.issued ∧
      ((r.moved n = none ∧ (v = 0 ∨ v < 0 ∧ t.errno ≠ eintr)) ∨
        r.moved n = some v ∧ v ≤ n ∧ (0 < v ∨ v < 0 ∧ t.errno = eintr)) := by
  obtain ⟨o, rfl⟩ := Int.eq_ofNat_of_zero_le hoff
  have hlen : (memBytes mem pos n.toNat).length = n.toNat := length_memBytes _ _ _
  have hnext := nextIoResult_cons hio
  cases r with
  | full =>
      refine ⟨_, _, pwriteAt_full _ _ hnext, rfl, ?_, .inr ⟨?_, ?_, ?_⟩⟩
      · simp [State.issued, Device.write, hlen]
      · rw [hlen, IoResult.moved, Int.toNat_of_nonneg (by omega)]
      · omega
      · omega
  | short k =>
      refine ⟨_, _, pwriteAt_short _ _ hnext, rfl, ?_, ?_⟩
      · simp [State.issued, Device.write, hlen]
      · rw [List.length_take, hlen]
        by_cases hk : k = 0
        · exact .inl ⟨by rw [IoResult.moved, if_pos hk], .inl (by omega)⟩
        · refine .inr ⟨?_, by omega, by omega⟩
          rw [IoResult.moved, if_neg hk]
          congr 1
          omega
  | fail e =>
      refine ⟨_, _, pwriteAt_fail _ _ hnext, rfl, ?_, ?_⟩
      · simp [State.issued, Device.write, hlen]
      · by_cases he : (e : Int) + 1 = eintr
        · exact .inr ⟨by rw [IoResult.moved, if_pos he], by omega, .inr ⟨by decide, he⟩⟩
        · exact .inl ⟨by rw [IoResult.moved, if_neg he], .inr ⟨by decide, he⟩⟩

/-- A call at a negative offset is not issued. -/
theorem issuedBy_neg (hoff : offset < 0) : issuedBy [⟨pos, n, offset⟩] = [] := by
  simp [issuedBy, hoff]

/-- At a negative offset the loop of `full_pwrite` ends with what was left. -/
theorem fullPwriteLoop_refused (mem : Int → UInt8) (fuel : Nat) (pos : Int) (s : State) (hn : n ≠ 0)
    (hoff : offset < 0) :
    fullPwriteLoop mem (fuel + 1) n pos offset s = .ok n { s with errno := einval } := by
  have hcall (data : List UInt8) : pwriteAt data offset s = .ok (-1) { s with errno := einval } := by
    rw [pwriteAt, if_pos hoff]
    rfl
  rw [fullPwriteLoop, if_neg hn, Cmd.bind_ok (hcall _)]
  rfl

/-- `requests` lists the calls of `full_pwrite`: its loop always ends, and the calls of `pwrite` it
issues are those. -/
theorem fullPwriteLoop_issues {io : List IoResult} (mem : Int → UInt8) (pos offset : Int) (hio : s.io = io)
    (hfuel : io.length + 2 ≤ fuel) (hn : 0 ≤ n) : ∃ r s', fullPwriteLoop mem fuel n pos offset s = .ok r s' ∧
      s'.issued = issuedBy (requests io n pos offset) ++ s.issued := by
  -- every round takes one result of `io`, whatever the range it is asked for
  induction io generalizing s fuel n pos offset with
  | nil =>
      obtain ⟨fuel, rfl⟩ : ∃ f, fuel = f + 2 := ⟨fuel - 2, by simp only [List.length_nil] at hfuel; omega⟩
      by_cases h0 : n = 0
      · subst h0
        exact ⟨0, s, fullPwriteLoop_zero _ _ _ _ _, by rw [requests_zero]; rfl⟩
      have hreqs : requests [] n pos offset = [⟨pos, n, offset⟩] := by rw [requests, if_neg h0]
      by_cases hneg : offset < 0
      · refine ⟨n, _, fullPwriteLoop_refused _ _ _ s h0 hneg, ?_⟩
        rw [hreqs, issuedBy_neg hneg]
        rfl
      · obtain ⟨o, rfl⟩ := Int.eq_ofNat_of_zero_le (Int.not_lt.mp hneg)
        have hlen : (memBytes mem pos n.toNat).length = n.toNat := length_memBytes _ _ _
        have hcall := pwriteAt_full (memBytes mem pos n.toNat) o (nextIoResult_nil hio)
        rw [hlen, Int.toNat_of_nonneg hn] at hcall
        refine ⟨0, { s with
          dev := s.dev.write o n.toNat (memBytes mem pos n.toNat) }, ?_, ?_⟩
        · rw [fullPwriteLoop, if_neg h0, Cmd.bind_ok hcall, if_neg h0, if_neg (by omega),
            Int.sub_self]
          exact fullPwriteLoop_zero _ _ _ _ _
        · rw [hreqs, issuedBy_cons (Int.natCast_nonneg o)]
          simp [State.issued, Device.write, issuedBy]
  | cons r rest ih =>
      obtain ⟨fuel, rfl⟩ : ∃ f, fuel = f + 1 := ⟨fuel - 1, by simp only [List.length_cons] at hfuel; omega⟩
      by_cases h0 : n = 0
      · subst h0
        exact ⟨0, s, fullPwriteLoop_zero _ _ _ _ _, by rw [requests_zero]; rfl⟩
      by_cases hneg : offset < 0
      · refine ⟨n, _, fullPwriteLoop_refused _ _ _ s h0 hneg, ?_⟩
        rw [requests_last h0 (.inl hneg), issuedBy_neg hneg]
        rfl
      · have hoff : 0 ≤ offset := Int.not_lt.mp hneg
        obtain ⟨v, t, hcall, htio, hissued, hmoved⟩ := pwriteAt_moved mem pos hio (show 0 < n by omega) hoff
        rw [fullPwriteLoop, if_neg h0, Cmd.bind_ok hcall]
        have herrno : getErrno t = .ok t.errno t := rfl
        rcases hmoved with ⟨hnone, hend⟩ | ⟨hsome, hle, hgo⟩
        · -- the loop ends here
          rw [requests_last h0 (.inr hnone), issuedBy_cons hoff]
          rcases hend with rfl | ⟨hv, herr⟩
          · exact ⟨n, { t with errno := eio }, by rw [if_pos rfl]; rfl, hissued⟩
          · refine ⟨n, t, ?_, hissued⟩
            rw [if_neg (by omega), if_pos hv, Cmd.bind_ok herrno, if_neg herr]
            rfl
        · obtain ⟨r', s', hrun, hissued'⟩ := ih (n := n - v) (pos + v) (offset + v) htio
            (show rest.length + 2 ≤ fuel by simp only [List.length_cons] at hfuel; omega) (by omega)
          refine ⟨r', s', ?_, ?_⟩
          · rcases hgo with hpos | ⟨hv, herr⟩
            · rw [if_neg (by omega), if_neg (by omega)]
              exact hrun
            · rw [if_neg (by omega), if_pos hv, Cmd.bind_ok herrno, if_pos herr]
              exact hrun
          · rw [requests_more h0 hoff hsome, issuedBy_cons hoff, hissued', hissued]
            simp

/-- The calls of `full_pwrite`. -/
theorem fullPwrite_issues {r : Int} {count : Nat} (hrun : fullPwrite mem count offset s = .ok r t) :
    t.issued = issuedBy (requests s.io count 0 offset) ++ s.issued := by
  obtain ⟨r', t', hloop, hissued⟩ := fullPwriteLoop_issues mem 0 offset rfl
    (Nat.le_refl (s.io.length + 2)) (Int.natCast_nonneg count)
  unfold fullPwrite at hrun
  rw [Cmd.get_bind, Cmd.bind_ok hloop] at hrun
  cases hrun
  exact hissued

end Issued

/-! ## Reading -/

section Read

variable {s s' t : State} {mem mem' mem'' : Int → UInt8} {n pos offset m b fuel : Nat}

/-- The `m` device bytes from `offset` on are in memory from `pos` on, and nothing else changed
there. -/
def Loaded (s : State) (pos offset m : Nat) (mem mem' : Int → UInt8) : Prop :=
  ∀ i : Int, mem' i =
    if pos ≤ i ∧ i < pos + m then s.dev.byte (offset + (i - pos)).toNat else mem i

/-- No bytes are loaded when memory is as it was. -/
theorem Loaded.nothing (s : State) (pos offset : Nat) (mem : Int → UInt8) :
    Loaded s pos offset 0 mem mem := by
  intro i
  rw [if_neg (by omega)]

/-- The bytes of one call and those of the calls after it. -/
theorem Loaded.append (h : Loaded s pos offset b mem mem')
    (h' : Loaded s (pos + b) (offset + b) m mem' mem'') : Loaded s pos offset (b + m) mem mem'' := by
  intro i
  rw [h' i, h i]
  by_cases hi : ((pos + b : Nat) : Int) ≤ i ∧ i < ((pos + b : Nat) : Int) + m
  · rw [if_pos hi, if_pos ⟨by omega, by omega⟩]
    congr 2
    omega
  · rw [if_neg hi]
    by_cases hi' : (pos : Int) ≤ i ∧ i < pos + b
    · rw [if_pos hi', if_pos ⟨by omega, by omega⟩]
    · rw [if_neg hi', if_neg (by omega)]

/-- `bytesAt` reads as many bytes as it is asked for. -/
theorem length_bytesAt (s : State) (offset count : Nat) : (s.bytesAt offset count).length = count := by
  simp [State.bytesAt]

/-- A call that reads `b` bytes. -/
theorem loaded_bytesAt (ht : t.dev = s.dev) :
    Loaded s pos offset b mem (storeBytes mem pos (t.bytesAt offset b)) := by
  intro i
  unfold storeBytes
  rw [length_bytesAt]
  split_ifs with hi
  · rw [List.getD_eq_getElem?_getD, State.bytesAt, List.getElem?_map,
      List.getElem?_range (by omega), ht]
    simp only [Option.map_some, Option.getD_some]
    congr 1
    omega
  · rfl

/-- A call that reads some bytes. -/
theorem fullPreadLoop_moved (hb : 0 < b) (hbn : b ≤ n)
    (hcall : preadAt n offset s = .ok (some (t.bytesAt offset b)) t) :
    fullPreadLoop (fuel + 1) mem n pos offset s =
      fullPreadLoop fuel (storeBytes mem pos (t.bytesAt offset b)) ((n - b : Nat) : Int)
        ((pos + b : Nat) : Int) ((offset + b : Nat) : Int) t := by
  rw [fullPreadLoop, if_neg (by omega), Int.toNat_natCast, Cmd.bind_ok hcall]
  simp only [length_bytesAt]
  rw [if_neg (by omega), Nat.cast_sub hbn, Nat.cast_add, Nat.cast_add]

/-- A call that reads nothing. -/
theorem fullPreadLoop_nothing (hn : n ≠ 0)
    (hcall : preadAt n offset s = .ok (some (t.bytesAt offset 0)) t) :
    fullPreadLoop (fuel + 1) mem n pos offset s = .ok ((n : Int), mem) { t with errno := eio } := by
  rw [fullPreadLoop, if_neg (by omega), Int.toNat_natCast, Cmd.bind_ok hcall]
  simp only [length_bytesAt]
  rfl

/-- A call that fails and is not interrupted. -/
theorem fullPreadLoop_failed (hn : n ≠ 0) (hcall : preadAt n offset s = .ok none t)
    (herr : t.errno ≠ eintr) :
    fullPreadLoop (fuel + 1) mem n pos offset s = .ok ((n : Int), mem) t := by
  rw [fullPreadLoop, if_neg (by omega), Int.toNat_natCast, Cmd.bind_ok hcall]
  have herrno : getErrno t = .ok t.errno t := rfl
  simp only
  rw [Cmd.bind_ok herrno, if_neg herr]
  rfl

/-- The loop of `full_pread` ends when nothing is left to read. -/
theorem fullPreadLoop_zero (fuel : Nat) (mem : Int → UInt8) (pos offset : Int) (s : State) :
    fullPreadLoop (fuel + 1) mem 0 pos offset s = .ok (0, mem) s := by
  rw [fullPreadLoop, if_pos rfl]
  rfl

/-- A call that reads everything ends the loop. -/
theorem fullPreadLoop_full (mem : Int → UInt8) (pos fuel : Nat) (hn : n ≠ 0)
    (hcall : preadAt n offset s = .ok (some (t.bytesAt offset n)) t) (ht : t.dev = s.dev) :
    ∃ mem', fullPreadLoop (fuel + 2) mem n pos offset s = .ok (0, mem') t ∧
      Loaded s pos offset n mem mem' := by
  refine ⟨_, ?_, loaded_bytesAt ht⟩
  rw [fullPreadLoop_moved (by omega) (Nat.le_refl n) hcall, Nat.sub_self]
  exact fullPreadLoop_zero _ _ _ _ _

/-- An uninterrupted loop reads the bytes it does not report as remaining. -/
theorem fullPreadLoop_uninterrupted {io : List IoResult} (mem : Int → UInt8) (pos offset : Nat)
    (hio : s.io = io) (hfuel : io.length + 2 ≤ fuel) (h : Uninterrupted io n) : ∃ mem' s',
      fullPreadLoop fuel mem n pos offset s =
        .ok (((n - (transferred io n).1 : Nat) : Int), mem') s' ∧
      s'.dev = s.dev ∧ Loaded s pos offset (transferred io n).1 mem mem' ∧
      AfterTransfer io n s s' := by
  -- By induction over the results of the device; each `pread` takes one of them.
  induction io generalizing s fuel n pos offset mem with
  -- With no results left the device moves all that is asked for.
  | nil =>
      obtain ⟨fuel, rfl⟩ : ∃ f, fuel = f + 2 := ⟨fuel - 2, by omega⟩
      rw [transferred, Nat.sub_self]
      by_cases hn : n = 0
      · subst hn
        exact ⟨mem, s, fullPreadLoop_zero _ _ _ _ _, rfl, .nothing _ _ _ _, hio, rfl, fun _ => rfl⟩
      · obtain ⟨mem', hrun, hloaded⟩ := fullPreadLoop_full mem pos fuel hn
          (preadAt_full n offset (nextIoResult_nil hio)) rfl
        exact ⟨mem', s, hrun, rfl, hloaded, hio, rfl, fun _ => rfl⟩
  | cons r rest ih =>
      simp only [List.length_cons] at hfuel
      obtain ⟨fuel, rfl⟩ : ∃ f, fuel = f + 2 := ⟨fuel - 2, by omega⟩
      have hnext := nextIoResult_cons hio
      by_cases hn : n = 0
      · subst hn
        rw [transferred_zero]
        exact ⟨mem, s, fullPreadLoop_zero _ _ _ _ _, rfl, .nothing _ _ _ _,
          by rw [hio, transferred_zero], rfl, fun _ => rfl⟩
      cases r with
      | full =>
          obtain ⟨mem', hrun, hloaded⟩ := fullPreadLoop_full mem pos fuel hn
            (preadAt_full n offset hnext) rfl
          have hall := transferred_full hn rest
          rw [hall, Nat.sub_self]
          exact ⟨mem', { s with io := rest }, hrun, rfl, hloaded, by rw [hall], rfl, fun _ => rfl⟩
      | fail e =>
          -- No result is `EINTR`, so a failed call ends the loop.
          have hne : (e : Int) + 1 ≠ eintr := fun heq => by
            cases eq_interrupted_iff.mp heq
            exact absurd rfl (h.resolve_left hn)
          have hcall := preadAt_fail n offset hnext
          have hnone := transferred_fail hn e rest
          rw [hnone]
          refine ⟨mem, { s with io := rest, errno := (e : Int) + 1 }, fullPreadLoop_failed hn hcall hne,
            rfl, .nothing _ _ _ _, by rw [hnone], rfl, fun h0 => ?_⟩
          rw [hnone] at h0
          exact absurd h0.symm hn
      | short k =>
          have hcall := preadAt_short n offset hnext
          -- A call that moves nothing is an end of file, and the loop stops with `EIO`.
          by_cases hk : k = 0
          · subst hk
            rw [Nat.zero_min] at hcall
            have hnone := transferred_short_zero hn rest
            rw [hnone]
            refine ⟨mem, { s with io := rest, errno := eio }, fullPreadLoop_nothing hn hcall, rfl,
              .nothing _ _ _ _, by rw [hnone], rfl, fun h0 => ?_⟩
            rw [hnone] at h0
            exact absurd h0.symm hn
          -- A short result that reaches the count is a whole call.
          · by_cases hle : n ≤ k
            · rw [Nat.min_eq_right hle] at hcall
              obtain ⟨mem', hrun, hloaded⟩ := fullPreadLoop_full mem pos fuel hn
                hcall rfl
              have hall := transferred_short_all hn hle rest
              rw [hall, Nat.sub_self]
              exact ⟨mem', { s with io := rest }, hrun, rfl, hloaded, by rw [hall], rfl, fun _ => rfl⟩
            · rw [Nat.min_eq_left (by omega)] at hcall
              -- The calls behind a short one are asked for the rest.
              have hrest : Uninterrupted rest (n - k) := (h.resolve_left hk).resolve_left hle
              obtain ⟨mem', s', hrun, hdev, hloaded, hafter⟩ := ih (s := { s with io := rest })
                (storeBytes mem pos (State.bytesAt { s with io := rest } offset k)) (pos + k)
                (offset + k) rfl (show rest.length + 2 ≤ fuel + 1 by omega) hrest
              have hfirst : Loaded s pos offset k mem
                  (storeBytes mem pos (State.bytesAt { s with io := rest } offset k)) :=
                loaded_bytesAt rfl
              have hboth := transferred_short hk (Nat.lt_of_not_le hle) rest
              rw [hboth]
              refine ⟨mem', s', ?_, hdev, hfirst.append hloaded, by rw [hboth, hafter.io_eq],
                hafter.only, fun hall => hafter.errno ?_⟩
              · rw [fullPreadLoop_moved (by omega) (Nat.le_of_not_le hle) hcall, hrun, Nat.sub_add_eq]
              · rw [hboth] at hall
                simp only at hall
                omega

end Read

/-! ## The calls that load the memory -/

section Loads

variable {s t : State} {fuel : Nat} {n pos offset : Int}

/-- A call of `pread` that reaches the device, and what the loop makes of its result. -/
theorem preadAt_moved {r : IoResult} {rest : List IoResult} (hio : s.io = r :: rest) (hn : 0 < n)
    (hoff : 0 ≤ offset) :
    ∃ o t, preadAt n.toNat offset s = .ok o t ∧ t.io = rest ∧ t.dev = s.dev ∧
      ((∃ b : Nat, o = some (s.bytesAt offset.toNat b) ∧ b ≤ n ∧
          (b = 0 ∧ r.moved n = none ∨ 0 < b ∧ r.moved n = some (b : Int))) ∨
        o = none ∧ (r.moved n = none ∧ t.errno ≠ eintr ∨ r.moved n = some (-1) ∧ t.errno = eintr)) := by
  obtain ⟨o, rfl⟩ := Int.eq_ofNat_of_zero_le hoff
  have hnext := nextIoResult_cons hio
  have hnat : ((n.toNat : Nat) : Int) = n := Int.toNat_of_nonneg (by omega)
  cases r with
  | full =>
      exact ⟨_, _, preadAt_full _ _ hnext, rfl, rfl, .inl ⟨n.toNat, rfl, by omega, .inr ⟨by omega, by
        rw [IoResult.moved, hnat]⟩⟩⟩
  | short k =>
      refine ⟨_, _, preadAt_short _ _ hnext, rfl, rfl, .inl ⟨min k n.toNat, rfl, by omega, ?_⟩⟩
      by_cases hk : k = 0
      · exact .inl ⟨by omega, by rw [IoResult.moved, if_pos hk]⟩
      · refine .inr ⟨by omega, ?_⟩
        rw [IoResult.moved, if_neg hk]
        congr 1
        omega
  | fail e =>
      refine ⟨_, _, preadAt_fail _ _ hnext, rfl, rfl, .inr ⟨rfl, ?_⟩⟩
      by_cases he : (e : Int) + 1 = eintr
      · exact .inr ⟨by rw [IoResult.moved, if_pos he], he⟩
      · exact .inl ⟨by rw [IoResult.moved, if_neg he], he⟩

/-- Storing no bytes leaves memory alone. -/
theorem storeBytes_nil (mem : Int → UInt8) (pos : Int) : storeBytes mem pos [] = mem := by
  funext i
  exact if_neg (by simp)

/-- What a call loads that reaches the device. -/
theorem load_bytesAt {b : Nat} {r : IoResult} (mem : Int → UInt8) (pos : Int) (hoff : 0 ≤ offset)
    (hb : b = 0 ∧ r.moved n = none ∨ 0 < b ∧ r.moved n = some (b : Int)) :
    (⟨pos, n, offset⟩ : Request).load s.dev.byte r mem = storeBytes mem pos (s.bytesAt offset.toNat b) := by
  unfold Request.load State.bytesAt
  rw [if_neg (Int.not_lt.mpr hoff)]
  rcases hb with ⟨rfl, hnone⟩ | ⟨-, hsome⟩
  · rw [hnone]
    rfl
  · rw [hsome]
    rfl

/-- A call that loads nothing. -/
theorem load_nothing {r : IoResult} {byte : Nat → UInt8} {mem : Int → UInt8}
    (h : r.moved n = none ∨ r.moved n = some (-1)) :
    (⟨pos, n, offset⟩ : Request).load byte r mem = mem := by
  unfold Request.load
  split_ifs with hneg
  · rfl
  · rcases h with hnone | hsome
    · rw [hnone]
      exact storeBytes_nil mem pos
    · rw [hsome]
      exact storeBytes_nil mem pos

/-- A refused call loads nothing. -/
theorem load_refused {r : IoResult} {byte : Nat → UInt8} {mem : Int → UInt8} (hoff : offset < 0) :
    (⟨pos, n, offset⟩ : Request).load byte r mem = mem := if_pos hoff

/-- At a negative offset the loop of `full_pread` ends with what was left. -/
theorem fullPreadLoop_refused (mem : Int → UInt8) (fuel : Nat) (pos : Int) (s : State) (hn : n ≠ 0)
    (hoff : offset < 0) :
    fullPreadLoop (fuel + 1) mem n pos offset s = .ok (n, mem) { s with errno := einval } := by
  have hcall (n : Nat) : preadAt n offset s = .ok none { s with errno := einval } := by
    rw [preadAt, if_pos hoff]
    rfl
  rw [fullPreadLoop, if_neg hn, Cmd.bind_ok (hcall _)]
  rfl

/-- `requests` lists the calls of `full_pread`: its loop always ends, and the memory is what they load. -/
theorem fullPreadLoop_issues {io : List IoResult} (mem : Int → UInt8) (pos offset : Int) (hio : s.io = io)
    (hfuel : io.length + 2 ≤ fuel) (hn : 0 ≤ n) :
    ∃ r s', fullPreadLoop fuel mem n pos offset s =
      .ok (r, loadAll s.dev.byte io (requests io n pos offset) mem) s' := by
  -- every round takes one result of `io`, whatever the range it is asked for
  induction io generalizing s fuel n pos offset mem with
  | nil =>
      obtain ⟨fuel, rfl⟩ : ∃ f, fuel = f + 2 := ⟨fuel - 2, by simp only [List.length_nil] at hfuel; omega⟩
      by_cases h0 : n = 0
      · subst h0
        exact ⟨0, s, by rw [requests_zero]; exact fullPreadLoop_zero _ _ _ _ _⟩
      have hreqs : requests [] n pos offset = [⟨pos, n, offset⟩] := by rw [requests, if_neg h0]
      rw [hreqs]
      by_cases hneg : offset < 0
      · refine ⟨n, { s with errno := einval }, ?_⟩
        rw [loadAll, loadAll, load_refused hneg]
        exact fullPreadLoop_refused _ _ _ s h0 hneg
      · obtain ⟨o, rfl⟩ := Int.eq_ofNat_of_zero_le (Int.not_lt.mp hneg)
        have hcall := preadAt_full n.toNat o (nextIoResult_nil hio)
        have hnat : ((n.toNat : Nat) : Int) = n := Int.toNat_of_nonneg hn
        refine ⟨0, s, ?_⟩
        rw [fullPreadLoop, if_neg h0, Cmd.bind_ok hcall]
        dsimp only
        rw [length_bytesAt, if_neg (by omega), hnat, Int.sub_self, loadAll, loadAll,
          load_bytesAt (r := .full) (b := n.toNat) mem pos (Int.natCast_nonneg o)
            (.inr ⟨by omega, by rw [IoResult.moved, hnat]⟩)]
        exact fullPreadLoop_zero _ _ _ _ _
  | cons r rest ih =>
      obtain ⟨fuel, rfl⟩ : ∃ f, fuel = f + 1 := ⟨fuel - 1, by simp only [List.length_cons] at hfuel; omega⟩
      have hfuel' : rest.length + 2 ≤ fuel := by simp only [List.length_cons] at hfuel; omega
      by_cases h0 : n = 0
      · subst h0
        exact ⟨0, s, by rw [requests_zero]; exact fullPreadLoop_zero _ _ _ _ _⟩
      by_cases hneg : offset < 0
      · refine ⟨n, { s with errno := einval }, ?_⟩
        rw [requests_last h0 (.inl hneg), loadAll, loadAll, load_refused hneg]
        exact fullPreadLoop_refused _ _ _ s h0 hneg
      have hoff : 0 ≤ offset := Int.not_lt.mp hneg
      obtain ⟨o, t, hcall, htio, htdev, hmoved⟩ := preadAt_moved hio (show 0 < n by omega) hoff
      rw [fullPreadLoop, if_neg h0, Cmd.bind_ok hcall, ← htdev]
      rcases hmoved with ⟨b, rfl, hle, hb⟩ | ⟨rfl, hends⟩
      · have hload := load_bytesAt (s := s) mem pos hoff hb
        rw [← htdev] at hload
        dsimp only
        rw [length_bytesAt]
        rcases hb with ⟨rfl, hnone⟩ | ⟨hpos, hsome⟩
        · -- the loop ends here
          rw [if_pos rfl, requests_last h0 (.inr hnone), loadAll, loadAll, hload]
          exact ⟨n, { t with errno := eio }, by rw [State.bytesAt, List.range_zero, List.map_nil, storeBytes_nil]; rfl⟩
        · rw [if_neg (by omega), requests_more h0 hoff hsome, loadAll, hload]
          exact ih _ (pos + b) (offset + b) htio hfuel' (by omega)
      · dsimp only
        have herrno : getErrno t = .ok t.errno t := rfl
        rw [Cmd.bind_ok herrno]
        rcases hends with ⟨hnone, herr⟩ | ⟨hsome, herr⟩
        · rw [if_neg herr, requests_last h0 (.inr hnone), loadAll, loadAll, load_nothing (.inl hnone)]
          exact ⟨n, t, rfl⟩
        · -- an interrupted call is followed by one that starts a byte earlier
          rw [if_pos herr, requests_more h0 hoff hsome, loadAll, load_nothing (.inr hsome)]
          have hnext := ih mem (pos + -1) (offset + -1) htio hfuel' (show 0 ≤ n - -1 by omega)
          rwa [Int.sub_neg] at hnext

/-- The calls of `full_pread`. -/
theorem fullPread_issues {r : Int} {count : Nat} {mem mem' : Int → UInt8}
    (hrun : fullPread mem count offset s = .ok (r, mem') t) :
    mem' = loadAll s.dev.byte s.io (requests s.io count 0 offset) mem := by
  obtain ⟨r', t', hloop⟩ := fullPreadLoop_issues mem 0 offset rfl (Nat.le_refl (s.io.length + 2))
    (Int.natCast_nonneg count)
  unfold fullPread at hrun
  rw [Cmd.get_bind, Cmd.bind_ok hloop] at hrun
  cases hrun
  rfl

end Loads

/-! ## Whole transfers -/

section Transfers

variable {s : State} {mem : Int → UInt8} {count : Nat} {offset : Int}

/-- A transfer at a negative offset is refused. -/
theorem retriesSame_of_neg (hoff : offset < 0) (io : List IoResult) (n pos : Int) :
    RetriesSame io (requests io n pos offset) := by
  intro i q hq hq' _
  have hone : requests io n pos offset = [] ∨ requests io n pos offset = [⟨pos, n, offset⟩] := by
    cases io with
    | nil => by_cases hn : n = 0 <;> simp [requests, hn]
    | cons r rest =>
        by_cases hn : n = 0
        · simp [requests, hn]
        · exact .inr (requests_last hn (.inl hoff) rest)
  rcases hone with hnil | hone
  · rw [hnil] at hq
    cases hq
  · rw [hone] at hq
    cases i with
    | zero =>
        cases hq
        exact absurd hq' (by simpa using hoff)
    | succ i => cases hq

/-- A transfer at a negative offset writes nothing and reports nothing. -/
theorem pwriteOk_of_neg (hoff : offset < 0) : PwriteOk mem count offset s := by
  have hretries := retriesSame_of_neg hoff s.io count 0
  have hbytes (i : Nat) (s' : State) (hdev : s'.dev = s.dev) : s'.dev.byte i =
      if offset ≤ i ∧ i < offset + 0 then mem (i - offset) else s.dev.byte i := by
    rw [if_neg (by omega), hdev]
  by_cases hn : count = 0
  · subst hn
    have hloop := fullPwriteLoop_zero mem (s.io.length + 1) 0 offset s
    have hrun : fullPwrite mem 0 offset s = .ok 0 s := by
      unfold fullPwrite
      rw [Cmd.get_bind, Nat.cast_zero, Cmd.bind_ok hloop]
      rfl
    exact ⟨0, s, hrun, Int.le_refl 0, Int.le_refl 0, fun i => hbytes i s rfl, fullPwrite_issues hrun, hretries⟩
  · have hloop := fullPwriteLoop_refused mem (s.io.length + 1) 0 s
      (show (count : Int) ≠ 0 by omega) hoff
    have hrun : fullPwrite mem count offset s = .ok 0 { s with errno := einval } := by
      unfold fullPwrite
      rw [Cmd.get_bind, Cmd.bind_ok hloop, Int.sub_self]
      rfl
    exact ⟨0, { s with errno := einval }, hrun, Int.le_refl 0, by omega, fun i => hbytes i _ rfl,
      fullPwrite_issues hrun, hretries⟩

/-- A transfer at a negative offset reads nothing and reports nothing. -/
theorem preadOk_of_neg (hoff : offset < 0) : PreadOk mem count offset s := by
  have hretries := retriesSame_of_neg hoff s.io count 0
  by_cases hn : count = 0
  · subst hn
    have hloop := fullPreadLoop_zero (s.io.length + 1) mem 0 offset s
    have hrun : fullPread mem 0 offset s = .ok (0, mem) s := by
      unfold fullPread
      rw [Cmd.get_bind, Nat.cast_zero, Cmd.bind_ok hloop]
      rfl
    exact ⟨0, mem, s, hrun, Int.le_refl 0, Int.le_refl 0, fun i h0 h1 => by omega, fun _ _ => rfl, rfl,
      fullPread_issues hrun, hretries⟩
  · have hloop := fullPreadLoop_refused mem (s.io.length + 1) 0 s (show (count : Int) ≠ 0 by omega) hoff
    have hrun : fullPread mem count offset s = .ok (0, mem) { s with errno := einval } := by
      unfold fullPread
      rw [Cmd.get_bind, Cmd.bind_ok hloop]
      show EStateM.Result.ok ((count : Int) - count, mem) _ = _
      rw [Int.sub_self]
    exact ⟨0, mem, { s with errno := einval }, hrun, Int.le_refl 0, by omega, fun i h0 h1 => by omega,
      fun _ _ => rfl, rfl, fullPread_issues hrun, hretries⟩

/-- `full_pwrite` is right when no call of it is interrupted. -/
theorem pwriteOk_of_uninterrupted {offset : Nat} (h : Uninterrupted s.io count) :
    PwriteOk mem count offset s := by
  obtain ⟨s', hrun, hstored, -⟩ := fullPwriteLoop_uninterrupted mem 0 offset
    rfl (Nat.le_refl (s.io.length + 2)) h
  have hm := transferred_le s.io count
  have hwrite : fullPwrite mem count offset s = .ok (transferred s.io count).1 s' := by
    unfold fullPwrite
    rw [Cmd.get_bind, ← Nat.cast_zero, Cmd.bind_ok hrun, Nat.cast_sub hm, Int.sub_sub_self]
    rfl
  refine ⟨(transferred s.io count).1, s', hwrite, by omega, by omega, fun i => ?_, fullPwrite_issues hwrite,
    retriesSame_of_uninterrupted h⟩
  rw [hstored i, Nat.zero_add]
  by_cases hi : offset ≤ i ∧ i < offset + (transferred s.io count).1
  · rw [if_pos hi, if_pos ⟨by omega, by omega⟩, Nat.cast_sub hi.1]
  · rw [if_neg hi, if_neg (by omega)]

/-- `full_pread` is right when no call of it is interrupted. -/
theorem preadOk_of_uninterrupted {offset : Nat} (h : Uninterrupted s.io count) :
    PreadOk mem count offset s := by
  obtain ⟨mem', s', hrun, hdev, hloaded, -⟩ := fullPreadLoop_uninterrupted mem 0 offset rfl
    (Nat.le_refl (s.io.length + 2)) h
  have hm := transferred_le s.io count
  have hread : fullPread mem count offset s = .ok ((transferred s.io count).1, mem') s' := by
    unfold fullPread
    rw [Cmd.get_bind, ← Nat.cast_zero, Cmd.bind_ok hrun, Nat.cast_sub hm]
    show EStateM.Result.ok ((count : Int) - (count - (transferred s.io count).1), mem') s' = _
    rw [Int.sub_sub_self]
  refine ⟨(transferred s.io count).1, mem', s', hread, by omega, by omega, fun i h0 h1 => ?_,
    fun i hi => ?_, hdev, fullPread_issues hread, retriesSame_of_uninterrupted h⟩
  · rw [hloaded i, if_pos ⟨by omega, by omega⟩]
    congr 2
    omega
  · rw [hloaded i, if_neg (by omega)]

/-- **Transfers.** `full_pwrite` and `full_pread` move exactly the prefix they report, and repeat the
calls that are interrupted, just when no call is. -/
theorem fullTransfers_ok_iff (mem : Int → UInt8) (count : Nat) (offset : Int) (s : State) :
    (PwriteOk mem count offset s ↔ offset < 0 ∨ Uninterrupted s.io count) ∧
      (PreadOk mem count offset s ↔ offset < 0 ∨ Uninterrupted s.io count) := by
  by_cases hneg : offset < 0
  · exact ⟨iff_of_true (pwriteOk_of_neg hneg) (.inl hneg),
      iff_of_true (preadOk_of_neg hneg) (.inl hneg)⟩
  · obtain ⟨o, rfl⟩ := Int.eq_ofNat_of_zero_le (Int.not_lt.mp hneg)
    have hzero : (0 : Int) ≤ o := Int.natCast_nonneg o
    refine ⟨⟨fun hok => ?_, fun h => pwriteOk_of_uninterrupted (h.resolve_left hneg)⟩,
      ⟨fun hok => ?_, fun h => preadOk_of_uninterrupted (h.resolve_left hneg)⟩⟩
    · obtain ⟨r, s', -, -, -, -, -, hretries⟩ := hok
      by_contra hno
      exact not_retriesSame hzero (fun h => hno (.inr h)) hretries
    · obtain ⟨r, mem', s', -, -, -, -, -, -, -, hretries⟩ := hok
      by_contra hno
      exact not_retriesSame hzero (fun h => hno (.inr h)) hretries

/-- One byte written at offset 5 after an interrupted call: the retry starts a byte early, so the
byte of the device at offset 4 changes too. -/
theorem not_fullTransfers_ok :
    ¬ ((PwriteOk (fun _ => 1) 1 5 { smallVolume with io := [.interrupted] }) ∧
      PreadOk (fun _ => 1) 1 5 { smallVolume with io := [.interrupted] }) := by
  rintro ⟨⟨r, s', hrun, -, -, hbytes, -⟩, -⟩
  have hrun' : fullPwrite (fun _ => 1) 1 5 { smallVolume with io := [.interrupted] } = .ok 1
      { smallVolume with
        io := []
        errno := eintr
        dev := ⟨fun _ => 0, [⟨4, 2, [1, 1]⟩, ⟨5, 1, []⟩]⟩ } := rfl
  cases hrun.symm.trans hrun'
  have hbyte := hbytes 4
  simp [Device.byte, byteAfter, smallVolume] at hbyte

end Transfers

end OsLabs.Fat
