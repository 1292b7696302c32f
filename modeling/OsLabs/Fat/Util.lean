import OsLabs.Fat.State

/-! # Device transfers and FAT time stamps (`fat_util.c`)

`full_pread` and `full_pwrite` repeat a device call until everything is transferred. Their loops
keep the number of bytes remaining, a position relative to the start of the caller's buffer and the
device offset; as in the source, `continue` still runs the step of the `for` loop, with
`bytes_read = -1`. -/

namespace OsLabs.Fat

/-! ## Full transfers -/

/-- `pwrite` at an offset of type `off_t`. -/
def pwriteAt (data : List UInt8) (offset : Int) : M Int :=
  if offset < 0 then do
    setErrno einval
    pure (-1)
  else pwrite data offset.toNat

/-- `pread` at an offset of type `off_t`. -/
def preadAt (count : Nat) (offset : Int) : M (Option (List UInt8)) :=
  if offset < 0 then do
    setErrno einval
    pure none
  else pread count offset.toNat

/-- The `count` bytes of memory from a position on. -/
def memBytes (mem : Int → UInt8) (pos : Int) (count : Nat) : List UInt8 :=
  (List.range count).map fun i : Nat => mem (pos + i)

/-- Memory after storing bytes from a position on. -/
def storeBytes (mem : Int → UInt8) (pos : Int) (data : List UInt8) : Int → UInt8 := fun i =>
  if pos ≤ i ∧ i < pos + data.length then data.getD (i - pos).toNat 0 else mem i

/-- The loop of `full_pwrite`; returns the bytes remaining. -/
def fullPwriteLoop (mem : Int → UInt8) : Nat → Int → Int → Int → M Int
  | 0, _, _, _ => throw .diverges
  | fuel + 1, bytesRemaining, pos, offset =>
      if bytesRemaining = 0 then pure bytesRemaining
      else do
        let bytesRead ← pwriteAt (memBytes mem pos bytesRemaining.toNat) offset
        if bytesRead = 0 then do
          setErrno eio
          pure bytesRemaining
        else if bytesRead < 0 then do
          let errno ← getErrno
          if errno = eintr then
            fullPwriteLoop mem fuel (bytesRemaining - bytesRead) (pos + bytesRead)
              (offset + bytesRead)
          else pure bytesRemaining
        else
          fullPwriteLoop mem fuel (bytesRemaining - bytesRead) (pos + bytesRead)
            (offset + bytesRead)

/-- `full_pwrite` of `count` bytes from the start of a buffer. Every round uses up one of the listed
device results, and the call after the last of them transfers everything. -/
def fullPwrite (mem : Int → UInt8) (count : Nat) (offset : Int) : M Int := do
  let s ← get
  let bytesRemaining ← fullPwriteLoop mem (s.io.length + 2) count 0 offset
  pure (count - bytesRemaining)

/-- The loop of `full_pread`; returns the bytes remaining and the memory read into. -/
def fullPreadLoop : Nat → (Int → UInt8) → Int → Int → Int → M (Int × (Int → UInt8))
  | 0, _, _, _, _ => throw .diverges
  | fuel + 1, mem, bytesRemaining, pos, offset =>
      if bytesRemaining = 0 then pure (bytesRemaining, mem)
      else do
        match ← preadAt bytesRemaining.toNat offset with
        | none => do
            let errno ← getErrno
            if errno = eintr then
              fullPreadLoop fuel mem (bytesRemaining + 1) (pos - 1) (offset - 1)
            else pure (bytesRemaining, mem)
        | some data =>
            if data.length = 0 then do
              setErrno eio
              pure (bytesRemaining, mem)
            else
              fullPreadLoop fuel (storeBytes mem pos data) (bytesRemaining - data.length)
                (pos + data.length) (offset + data.length)

/-- `full_pread` of `count` bytes to the start of a buffer whose memory is `mem`. -/
def fullPread (mem : Int → UInt8) (count : Nat) (offset : Int) : M (Int × (Int → UInt8)) := do
  let s ← get
  let (bytesRemaining, mem) ← fullPreadLoop (s.io.length + 2) mem count 0 offset
  pure (count - bytesRemaining, mem)

/-- Memory that holds a buffer at position `0`, among other bytes. -/
def bufferMem (around : Int → UInt8) (buf : List UInt8) : Int → UInt8 :=
  storeBytes around 0 buf

/-! ## Time stamps -/

/-- `gmtime_r`: the proleptic Gregorian date and the time of day of a time stamp. -/
def gmtimeR (t : Int) : Tm :=
  let days := t / 86400
  let secs := t % 86400
  let z := days + 719468
  let era := z / 146097
  let doe := z % 146097
  let yoe := (doe - doe / 1460 + doe / 36524 - doe / 146096) / 365
  let doy := doe - (365 * yoe + yoe / 4 - yoe / 100)
  let mp := (5 * doy + 2) / 153
  let month := if mp < 10 then mp + 3 else mp - 9
  { sec := secs % 60
    min := secs / 60 % 60
    hour := secs / 3600
    mday := doy - (153 * mp + 2) / 5 + 1
    mon := month - 1
    year := yoe + era * 400 + (if month ≤ 2 then 1 else 0) - 1900 }

/-- Conversion of an `int` to `le16`. -/
def toU16 (v : Int) : Nat := (v % 2 ^ 16).toNat

/-- The date word of `fill_time`. -/
def fillTimeDate (t : Int) : Nat :=
  let timeSt := gmtimeR t
  let date := toU16 timeSt.mday &&& 0x001F
  let date := (date ||| (toU16 timeSt.mon + 1) <<< 5) % 2 ^ 16 &&& 0x01FF
  (date ||| toU16 (timeSt.year + 1900 - 1980) <<< 9) % 2 ^ 16

/-- The time word of `fill_time`. -/
def fillTimeTime (t : Int) : Nat :=
  let timeSt := gmtimeR t
  let tim := toU16 (timeSt.sec / 2) &&& 0x001F
  let tim := (tim ||| toU16 timeSt.min <<< 5) % 2 ^ 16 &&& 0x07FF
  (tim ||| toU16 timeSt.hour <<< 11) % 2 ^ 16

/-- `time_to_unix_time`. -/
def timeToUnixTime (mktime : Tm → Int) (date time : Nat) : Int :=
  mktime
    { sec := ((time &&& 0x1f) * 2 : Nat)
      min := ((time >>> 5) &&& 0x3f : Nat)
      hour := (time >>> 11 : Nat)
      mday := (date &&& 0x1f : Nat)
      mon := toU16 (((date >>> 5) &&& 0xf : Nat) - 1)
      year := ((date >>> 9) + (1980 - 1900) : Nat) }

end OsLabs.Fat
