import CoralReef.Misc.Utf8

/-!
# Byte streams read piece by piece

Readers hand out the bytes of a stream in pieces of any size, after any delay. A reader is an
instance of `AsyncRead`, which carries the bytes still to come and the law that a read takes
its bytes from the front of them. A buffer and a line put back in front of a reader are readers
again, so what a line reader returns depends on the bytes alone.
-/

namespace CoralReef

/-- How a stream stops: closed by its writer, failed, or left open without another byte. -/
inductive StreamEnd where
  | eof
  | broken
  | silent
  deriving DecidableEq, Repr

/-- One read: the time it took and at least one byte, or no more bytes. -/
inductive Read (R : Type) where
  | got (wait : Nat) (first : UInt8) (more : List UInt8) (rest : R)
  | stopped (how : StreamEnd)

/-- What a read leaves, put into another reader. -/
def Read.map {R S : Type} (wrap : R → S) : Read R → Read S
  | .got wait first more rest => .got wait first more (wrap rest)
  | .stopped how => .stopped how

/-- A reader, with the bytes it has still to hand out. -/
class AsyncRead (R : Type) where
  /-- One read into a buffer of `limit` bytes. -/
  read : R → Nat → Read R
  content : R → List UInt8
  ending : R → StreamEnd
  read_got : ∀ {reader : R} {limit wait first more rest},
    read reader limit = .got wait first more rest →
      content reader = first :: more ++ content rest ∧ ending rest = ending reader
  read_stopped : ∀ {reader : R} {limit how},
    read reader limit = .stopped how → content reader = [] ∧ ending reader = how

open AsyncRead

/-! ## Sockets -/

/-- Bytes that arrive together, `wait` milliseconds after the ones before. -/
structure Arrival where
  wait : Nat
  first : UInt8
  more : List UInt8
  deriving DecidableEq, Repr

/-- What a peer sends, in the pieces in which it arrives. -/
structure Socket where
  arrivals : List Arrival
  ending : StreamEnd
  deriving DecidableEq, Repr

namespace Socket

/-- The bytes of an arrival that a read left, in front of the later ones. -/
def unread (left : List UInt8) (later : List Arrival) : List Arrival :=
  match left with
  | [] => later
  | first :: more => ⟨0, first, more⟩ :: later

def read (socket : Socket) (limit : Nat) : Read Socket :=
  match socket.arrivals with
  | [] => .stopped socket.ending
  | arrival :: later =>
      .got arrival.wait arrival.first (arrival.more.take (limit - 1))
        ⟨unread (arrival.more.drop (limit - 1)) later, socket.ending⟩

/-- Every byte that arrives. -/
def bytes (socket : Socket) : List UInt8 :=
  socket.arrivals.flatMap fun arrival => arrival.first :: arrival.more

theorem bytes_unread (left : List UInt8) (later : List Arrival) (ending : StreamEnd) :
    (Socket.mk (unread left later) ending).bytes = left ++ (Socket.mk later ending).bytes := by
  cases left <;> simp [unread, bytes]

end Socket

instance : AsyncRead Socket where
  read := Socket.read
  content := Socket.bytes
  ending := Socket.ending
  read_got := by
    rintro ⟨_ | ⟨arrival, later⟩, ending⟩ limit wait first more rest found
    · simp [Socket.read] at found
    · simp only [Socket.read, Read.got.injEq] at found
      rcases found with ⟨_, rfl, rfl, rfl⟩
      rw [Socket.bytes_unread]
      simp [Socket.bytes, ← List.append_assoc]
  read_stopped := by
    rintro ⟨_ | ⟨arrival, later⟩, ending⟩ limit how found
    · simpa [Socket.read, Socket.bytes] using found
    · simp [Socket.read] at found

/-! ## Buffers and prefixes -/

/-- The capacity of a buffer made by `BufReader::new`. -/
def bufCapacity : Nat := 8192

/-- A reader with a buffer of bytes already read. -/
structure BufReader (R : Type) where
  buf : List UInt8
  inner : R
  deriving DecidableEq, Repr

namespace BufReader

variable {R : Type} [AsyncRead R]

/-- `BufReader::new`. -/
def new (inner : R) : BufReader R := ⟨[], inner⟩

/-- All the bytes of the buffer, filled first if it is empty, and the reader without them. -/
def fillBuf (reader : BufReader R) : Read (BufReader R) :=
  match reader.buf with
  | first :: more => .got 0 first more ⟨[], reader.inner⟩
  | [] => (AsyncRead.read reader.inner bufCapacity).map (BufReader.mk [])

/-- A read goes through the buffer, except a large one when the buffer is empty. -/
def read (reader : BufReader R) (limit : Nat) : Read (BufReader R) :=
  if reader.buf = [] ∧ bufCapacity ≤ limit then
    (AsyncRead.read reader.inner limit).map (BufReader.mk [])
  else
    match reader.fillBuf with
    | .stopped how => .stopped how
    | .got wait first more rest =>
        .got wait first (more.take (limit - 1)) ⟨more.drop (limit - 1), rest.inner⟩

def content (reader : BufReader R) : List UInt8 := reader.buf ++ AsyncRead.content reader.inner

def ending (reader : BufReader R) : StreamEnd := AsyncRead.ending reader.inner

theorem fillBuf_got {reader rest : BufReader R} {wait : Nat} {first : UInt8} {more : List UInt8}
    (found : reader.fillBuf = .got wait first more rest) :
    rest.buf = [] ∧ reader.content = first :: more ++ AsyncRead.content rest.inner ∧
      rest.ending = reader.ending := by
  rcases reader with ⟨_ | ⟨head, tail⟩, inner⟩
  · simp only [fillBuf] at found
    cases inner_read : AsyncRead.read inner bufCapacity with
    | stopped how => simp [inner_read, Read.map] at found
    | got wait' first' more' rest' =>
        simp only [inner_read, Read.map, Read.got.injEq] at found
        rcases found with ⟨_, rfl, rfl, rfl⟩
        exact ⟨rfl, (read_got inner_read).1, (read_got inner_read).2⟩
  · simp only [fillBuf, Read.got.injEq] at found
    rcases found with ⟨_, rfl, rfl, rfl⟩
    exact ⟨rfl, rfl, rfl⟩

theorem fillBuf_stopped {reader : BufReader R} {how : StreamEnd}
    (found : reader.fillBuf = .stopped how) : reader.content = [] ∧ reader.ending = how := by
  rcases reader with ⟨_ | ⟨head, tail⟩, inner⟩
  · simp only [fillBuf] at found
    cases inner_read : AsyncRead.read inner bufCapacity with
    | got wait' first' more' rest' => simp [inner_read, Read.map] at found
    | stopped how' =>
        simp only [inner_read, Read.map, Read.stopped.injEq] at found
        subst found
        exact read_stopped inner_read
  · simp [fillBuf] at found

end BufReader

instance {R : Type} [AsyncRead R] : AsyncRead (BufReader R) where
  read := BufReader.read
  content := BufReader.content
  ending := BufReader.ending
  read_got := by
    intro reader limit wait first more rest found
    rw [BufReader.read] at found
    split at found
    next direct =>
      cases inner_read : AsyncRead.read reader.inner limit with
      | stopped how => simp [inner_read, Read.map] at found
      | got wait' first' more' rest' =>
          simp only [inner_read, Read.map, Read.got.injEq] at found
          rcases found with ⟨_, rfl, rfl, rfl⟩
          rw [BufReader.content, direct.1]
          exact ⟨(read_got inner_read).1, (read_got inner_read).2⟩
    next =>
      cases filled : reader.fillBuf with
      | stopped how => simp [filled] at found
      | got wait' first' more' rest' =>
          simp only [filled, Read.got.injEq] at found
          rcases found with ⟨_, rfl, rfl, rfl⟩
          rcases BufReader.fillBuf_got filled with ⟨_, bytes, same_end⟩
          exact ⟨by rw [bytes]; simp [BufReader.content, ← List.append_assoc], same_end⟩
  read_stopped := by
    intro reader limit how found
    rw [BufReader.read] at found
    split at found
    next direct =>
      cases inner_read : AsyncRead.read reader.inner limit with
      | got wait' first' more' rest' => simp [inner_read, Read.map] at found
      | stopped how' =>
          simp only [inner_read, Read.map, Read.stopped.injEq] at found
          subst found
          rw [BufReader.content, direct.1]
          exact read_stopped inner_read
    next =>
      cases filled : reader.fillBuf with
      | got wait' first' more' rest' => simp [filled] at found
      | stopped how' =>
          simp only [filled, Read.stopped.injEq] at found
          subst found
          exact BufReader.fillBuf_stopped filled

/-- `LinePrefixed`: what is left of a line that was read before, then the reader. -/
structure LinePrefixed (R : Type) where
  line : List UInt8
  inner : R
  deriving DecidableEq, Repr

namespace LinePrefixed

variable {R : Type} [AsyncRead R]

def read (reader : LinePrefixed R) (limit : Nat) : Read (LinePrefixed R) :=
  match reader.line with
  | first :: more => .got 0 first (more.take (limit - 1)) ⟨more.drop (limit - 1), reader.inner⟩
  | [] => (AsyncRead.read reader.inner limit).map (LinePrefixed.mk [])

end LinePrefixed

variable {R : Type}

instance {R : Type} [AsyncRead R] : AsyncRead (LinePrefixed R) where
  read := LinePrefixed.read
  content := fun reader => reader.line ++ content reader.inner
  ending := fun reader => ending reader.inner
  read_got := by
    rintro ⟨_ | ⟨head, tail⟩, inner⟩ limit wait first more rest found
    · simp only [LinePrefixed.read] at found
      cases inner_read : AsyncRead.read inner limit with
      | stopped how => simp [inner_read, Read.map] at found
      | got wait' first' more' rest' =>
          simp only [inner_read, Read.map, Read.got.injEq] at found
          rcases found with ⟨_, rfl, rfl, rfl⟩
          exact ⟨(read_got inner_read).1, (read_got inner_read).2⟩
    · simp only [LinePrefixed.read, Read.got.injEq] at found
      rcases found with ⟨_, rfl, rfl, rfl⟩
      exact ⟨by simp [← List.append_assoc], rfl⟩
  read_stopped := by
    rintro ⟨_ | ⟨head, tail⟩, inner⟩ limit how found
    · simp only [LinePrefixed.read] at found
      cases inner_read : AsyncRead.read inner limit with
      | got wait' first' more' rest' => simp [inner_read, Read.map] at found
      | stopped how' =>
          simp only [inner_read, Read.map, Read.stopped.injEq] at found
          subst found
          exact read_stopped inner_read
    · simp [LinePrefixed.read] at found

@[simp] theorem content_bufReader [AsyncRead R] (buf : List UInt8) (inner : R) :
    content (BufReader.mk buf inner) = buf ++ content inner := rfl

@[simp] theorem ending_bufReader [AsyncRead R] (buf : List UInt8) (inner : R) :
    ending (BufReader.mk buf inner) = ending inner := rfl

@[simp] theorem content_new [AsyncRead R] (inner : R) :
    content (BufReader.new inner) = content inner := rfl

@[simp] theorem ending_new [AsyncRead R] (inner : R) :
    ending (BufReader.new inner) = ending inner := rfl

@[simp] theorem content_linePrefixed [AsyncRead R] (line : List UInt8) (inner : R) :
    content (LinePrefixed.mk line inner) = line ++ content inner := rfl

@[simp] theorem ending_linePrefixed [AsyncRead R] (line : List UInt8) (inner : R) :
    ending (LinePrefixed.mk line inner) = ending inner := rfl

end CoralReef
