import Phpce.Lib.Buffer
import Phpce.Lib.Bytes
import Phpce.Lib.Run

/-!
# Reading a stream

The read buffer of a `php_stream` as `main/streams/streams.c` fills and drains it:
`_php_stream_fill_read_buffer`, `_php_stream_read`, `_php_stream_getc`, `_php_stream_get_line` and
`php_stream_get_record`. The data that the underlying `read` operation has yet to return is `rest`;
what the operation returns, and when it says end of file, is up to it.

A length that wraps below zero leaves a mark in `wrapped`. The differences of `readpos`, `writepos`
and `readbuflen` have no mark: they wrap only where the three are out of order.
-/

namespace Phpce

namespace Streams

open Bytes Buffer

/-! ## Filters -/

/-- `php_stream_filter_status_t`. -/
inductive FilterStatus where
  | errFatal
  | feedMe
  | passOn
  deriving DecidableEq, Repr

inductive FilterFlags where
  | normal
  | flushInc
  | flushClose
  deriving DecidableEq, Repr

/-- A read filter that passes its data on unchanged, in buckets of its own making. What it answers
where there is no data is its own business. -/
structure Filter where
  filter : FilterFlags → List Bytes → FilterStatus × List Bytes
  passes : ∀ flags brig, brig.flatten ≠ [] →
    (filter flags brig).1 = .passOn ∧ (filter flags brig).2.flatten = brig.flatten
  empty : ∀ flags brig, brig.flatten = [] → (filter flags brig).2.flatten = []

/-- "Wind the handle": the brigade goes through the chain until a filter does not pass it on. -/
def windHandle (flags : FilterFlags) : FilterStatus → List Filter → List Bytes →
    FilterStatus × List Bytes
  | status, [], brig => (status, brig)
  | _, f :: fs, brig =>
    if (f.filter flags brig).1 = .passOn then
      windHandle flags (f.filter flags brig).1 fs (f.filter flags brig).2
    else f.filter flags brig

/-! ## The stream -/

/-- The fields of the stream that do not change while it is read. `ops` is the underlying `read`: it
gets the number of its calls and the size asked for, and answers how many bytes it would like to
return, and what it leaves in `eof`. -/
structure Opened where
  ops : Nat → Nat → Nat × Bool
  readfilters : List Filter
  chunkSize : Nat
  chunkSize_pos : 0 < chunkSize
  chunkSize_lt : chunkSize < 0x8000000000000000
  -- `PHP_STREAM_FLAG_NO_BUFFER`
  noBuffer : Bool
  -- `wrapper == &php_plain_files_wrapper`
  plainFiles : Bool

def Opened.raw (c : Opened) : Bool :=
  c.readfilters.isEmpty && (c.noBuffer || c.chunkSize = 1)

structure Stream where
  rest : Bytes
  -- the calls of `ops->read` so far
  reads : Nat
  eof : Bool
  position : Nat
  readbuf : Nat → UInt8
  readbuflen : Nat
  readpos : Nat
  writepos : Nat
  -- `PHP_STREAM_FLAG_DETECT_EOL` and `PHP_STREAM_FLAG_EOL_MAC`
  detectEol : Bool
  eolMac : Bool
  wrapped : Bool

namespace Stream

/-- `STREAM_BUFFERED_AMOUNT`. -/
def amount (s : Stream) : Nat := s.writepos - s.readpos

def buffered (s : Stream) : Bytes := slice s.readbuf s.readpos s.amount

end Stream

def sizeMod : Nat := 0x10000000000000000

/-- A difference of `size_t`. -/
def subSize (a b : Nat) : Nat := (a + sizeMod - b) % sizeMod

variable (c : Opened)

/-- `ops->read`. -/
def opsRead (s : Stream) (size : Nat) : Bytes × Stream :=
  let n := min (c.ops s.reads size).1 size
  (s.rest.take n,
    { s with rest := s.rest.drop n, reads := s.reads + 1, eof := (c.ops s.reads size).2 })

/-- `writepos - readpos < (zend_off_t)size`: from 2^63 on the size is negative. -/
def lacks (s : Stream) (size : Nat) : Bool := size < 0x8000000000000000 && s.amount < size

/-- A bucket is copied behind the data; the buffer grows where it has to. -/
def putBucket (s : Stream) (bucket : Bytes) : Stream :=
  { s with
    readbuflen :=
      if s.readbuflen - s.writepos < bucket.length then s.readbuflen + bucket.length
      else s.readbuflen
    readbuf := store s.readbuf s.writepos bucket
    writepos := s.writepos + bucket.length }

def filterFlags (chunk : Bytes) (eof : Bool) : FilterFlags :=
  if chunk ≠ [] then .normal else if eof then .flushClose else .flushInc

/-- The loop of a stream with filters; each round reads one chunk. -/
def fillFiltered (size : Nat) : Nat → Stream → Stream
  | 0, s => s
  | fuel + 1, s =>
    if s.eof || !lacks s size then s
    else
      let (chunk, s) := opsRead c s c.chunkSize
      let (status, brig) := windHandle (filterFlags chunk s.eof) .errFatal c.readfilters
        (if chunk = [] then [] else [chunk])
      match status with
      | .passOn =>
        let s := brig.foldl putBucket s
        if chunk = [] then s else fillFiltered size fuel s
      | .feedMe => if chunk = [] then s else fillFiltered size fuel s
      | .errFatal => s

/-- "Reduce buffer memory consumption if possible". -/
def compact (s : Stream) : Stream :=
  if s.readbuflen ≠ 0 ∧ s.readbuflen - s.writepos < c.chunkSize then
    { s with
      readbuf := store s.readbuf 0 (slice s.readbuf s.readpos (s.readbuflen - s.readpos))
      writepos := s.writepos - s.readpos
      readpos := 0 }
  else s

/-- "Grow the buffer if required". -/
def grow (s : Stream) : Stream :=
  if s.readbuflen - s.writepos < c.chunkSize then
    { s with readbuflen := s.readbuflen + c.chunkSize }
  else s

/-- A stream without filters: one read, into the buffer. -/
def fillPlain (s : Stream) (size : Nat) : Stream :=
  if lacks s size then
    let s := grow c (compact c s)
    let (data, s) := opsRead c s (s.readbuflen - s.writepos)
    { s with readbuf := store s.readbuf s.writepos data, writepos := s.writepos + data.length }
  else s

/-- **`_php_stream_fill_read_buffer`**. With filters it starts by dropping what is in the buffer. -/
def fillReadBuffer (s : Stream) (size : Nat) : Stream :=
  let s := { s with wrapped := s.wrapped || 0x8000000000000000 ≤ size }
  if c.readfilters = [] then fillPlain c s size
  else fillFiltered c size (s.rest.length + 1) { s with writepos := 0, readpos := 0 }

/-- `memcpy` from the read buffer, of at most `size` bytes. -/
def takeBuffered (s : Stream) (size : Nat) : Bytes × Stream :=
  let toread := min s.amount size
  (slice s.readbuf s.readpos toread, { s with readpos := s.readpos + toread })

/-- The loop of `_php_stream_read`. A round takes what is buffered and, if that is too little, reads
once. -/
def readLoop : Nat → Stream → Nat → Bytes × Stream
  | 0, s, _ => ([], s)
  | fuel + 1, s, size =>
    if size = 0 then ([], s)
    else
      let (first, s) := takeBuffered s size
      if size - first.length = 0 then (first, s)
      else
        let size := size - first.length
        let (more, s) :=
          if c.raw then opsRead c s size
          else takeBuffered (fillReadBuffer c s size) size
        if more = [] then (first, s)
        -- "just break anyway, to avoid greedy read"
        else if !c.plainFiles then (first ++ more, s)
        else
          let (others, s) := readLoop fuel s (size - more.length)
          (first ++ more ++ others, s)

/-- **`_php_stream_read`**. Each round takes a byte or more, or is the last. -/
def streamRead (s : Stream) (size : Nat) : Bytes × Stream :=
  let (data, s) := readLoop c size s size
  (data, { s with position := s.position + data.length })

/-- **`_php_stream_getc`**. -/
def streamGetc (s : Stream) : Option UInt8 × Stream :=
  let (data, s) := streamRead c s 1
  (data.head?, s)

/-! ## Lines -/

/-- **`php_stream_locate_eol`**: the offset of the end of line in `buf`, or in the read buffer. -/
def locateEol (s : Stream) (buf : Option Bytes) : Option Nat × Stream :=
  let cr := (buf.getD s.buffered).idxOf? 13
  let lf := (buf.getD s.buffered).idxOf? 10
  if s.detectEol then
    match cr, lf with
    | some cr, none => (some cr, { s with detectEol := false, eolMac := true })
    | some cr, some lf =>
      if lf ≠ cr + 1 ∧ ¬lf < cr then (some cr, { s with detectEol := false, eolMac := true })
      else (some lf, { s with detectEol := false })
    | none, some lf => (some lf, { s with detectEol := false })
    | none, none => (none, s)
  else if s.eolMac then (cr, s)
  else (lf, s)

/-- What `_php_stream_get_line` copies of `avail` buffered bytes, and whether it is done then. -/
def copySize (buf : Bool) (maxlen avail : Nat) (eol : Option Nat) : Nat × Bool :=
  let copy := match eol with
    | some eol => (eol + 1, true)
    | none => (avail, false)
  if buf && maxlen - 1 ≤ copy.1 then (maxlen - 1, true) else copy

/-- The copy; `maxlen` is counted down. -/
def copyLine (s : Stream) (maxlen cpysz : Nat) : Bytes × Stream :=
  (slice s.readbuf s.readpos cpysz,
    { s with
      position := s.position + cpysz
      readpos := s.readpos + cpysz
      wrapped := s.wrapped || maxlen < cpysz })

/-- The loop of `_php_stream_get_line`; `buf` says that the caller has given a buffer, and without
one `maxlen` is counted down and never read. -/
def getLineLoop (buf : Bool) : Nat → Stream → Nat → Bytes × Stream
  | 0, s, _ => ([], s)
  | fuel + 1, s, maxlen =>
    if 0 < s.amount then
      let avail := s.amount
      let (eol, s) := locateEol s none
      let (cpysz, done) := copySize buf maxlen avail eol
      let (line, s) := copyLine s maxlen cpysz
      if done then (line, s)
      else
        let (others, s) := getLineLoop buf fuel s (subSize maxlen cpysz)
        (line ++ others, s)
    else if s.eof then ([], s)
    else
      let s := fillReadBuffer c s (if buf then min (maxlen - 1) c.chunkSize else c.chunkSize)
      if s.amount = 0 then ([], s) else getLineLoop buf fuel s maxlen

/-- **`_php_stream_get_line`**; `none` is `NULL`. -/
def streamGetLine (s : Stream) (buf : Bool) (maxlen : Nat) : Option Bytes × Stream :=
  if buf ∧ maxlen = 0 then (none, s)
  else
    let (line, s) := getLineLoop c buf (2 * s.rest.length + 3) s maxlen
    (if line = [] then none else some line, s)

/-! ## Records -/

/-- `php_memnstr`, and `memchr` for one byte. -/
def memnstr (needle : Bytes) : Bytes → Option Nat
  | [] => if needle = [] then some 0 else none
  | b :: s => if needle.isPrefixOf (b :: s) then some 0 else (memnstr needle s).map (· + 1)

/-- `_php_stream_search_delim`: the offset of the delimiter in the buffered bytes. -/
def searchDelim (s : Stream) (maxlen skiplen : Nat) (delim : Bytes) : Option Nat :=
  let seekLen := min s.amount maxlen
  if seekLen ≤ skiplen then none
  else (memnstr delim (slice s.readbuf (s.readpos + skiplen) (seekLen - skiplen))).map (· + skiplen)

/-- The search, where the caller has given a delimiter. -/
def findDelim (s : Stream) (maxlen skiplen : Nat) (delim : Bytes) : Option Nat :=
  if delim = [] then none else searchDelim s maxlen skiplen delim

/-- The loop of `php_stream_get_record`, "while we don't find the delim". -/
def recordLoop (maxlen : Nat) (delim : Bytes) : Nat → Stream → Nat → Option Nat × Stream
  | 0, s, _ => (none, s)
  | fuel + 1, s, bufferedLen =>
    if bufferedLen < maxlen then
      let toReadNow := min (maxlen - bufferedLen) c.chunkSize
      let s := fillReadBuffer c s (bufferedLen + toReadNow)
      let justRead := subSize s.amount bufferedLen
      let s := { s with wrapped := s.wrapped || s.amount < bufferedLen }
      if justRead = 0 then (none, s)
      else
        let skiplen :=
          if delim.length - 1 ≤ bufferedLen then bufferedLen - (delim.length - 1) else 0
        match findDelim s maxlen skiplen delim with
        | some i => (some i, s)
        | none => recordLoop maxlen delim fuel s ((bufferedLen + justRead) % sizeMod)
    else (none, s)

/-- The search for the delimiter: what is in the buffer, then what can be read. -/
def findRecord (s : Stream) (maxlen : Nat) (delim : Bytes) : Option Nat × Stream :=
  match findDelim s maxlen 0 delim with
  | some i => (some i, s)
  | none => recordLoop c maxlen delim (2 * s.rest.length + 3) s s.amount

/-- **`php_stream_get_record`**; the second value is the delimiter where it was consumed. -/
def streamGetRecord (s : Stream) (maxlen : Nat) (delim : Bytes) : Option Bytes × Bytes × Stream :=
  if maxlen = 0 then (none, [], s)
  else
    let (found, s) := findRecord c s maxlen delim
    match found with
    | some i =>
      let (record, s) := streamRead c s i
      (some record, delim,
        { s with readpos := s.readpos + delim.length, position := s.position + delim.length })
    | none =>
      if delim = [] ∧ maxlen ≤ s.amount then
        let (record, s) := streamRead c s maxlen
        (some record, [], s)
      else if s.amount < maxlen ∧ s.eof = false then (none, [], s)
      else if s.amount = 0 ∧ s.eof then (none, [], s)
      else
        let (record, s) := streamRead c s (min s.amount maxlen)
        (some record, [], s)

/-! ## Calls -/

inductive Call where
  | read (size : Nat)
  | getc
  | getLine (buf : Bool) (maxlen : Nat)
  | getRecord (maxlen : Nat) (delim : Bytes)
  deriving DecidableEq, Repr

/-- A stream and what its caller has got: the bytes returned and the delimiters consumed. -/
structure Reader where
  stream : Stream
  got : Bytes

def serve (s : Stream) : Call → Bytes × Stream
  | .read size => streamRead c s size
  | .getc => let (byte, s) := streamGetc c s; (byte.toList, s)
  | .getLine buf maxlen => let (line, s) := streamGetLine c s buf maxlen; (line.getD [], s)
  | .getRecord maxlen delim =>
    let (record, consumed, s) := streamGetRecord c s maxlen delim
    (record.getD [] ++ consumed, s)

def reading : EventSystem Reader Call where
  step r call := some ⟨(serve c r.stream call).2, r.got ++ (serve c r.stream call).1⟩

def opened (data : Bytes) (detectEol : Bool) : Reader where
  stream :=
    { rest := data, reads := 0, eof := false, position := 0, readbuf := fun _ => 0, readbuflen := 0,
      readpos := 0, writepos := 0, detectEol := detectEol, eolMac := false, wrapped := false }
  got := []

end Streams

end Phpce
