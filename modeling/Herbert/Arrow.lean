import Mathlib.Data.List.AList
import Herbert.Lib.Bytes
/-!
# What the server takes from its dependencies

Byte strings, hash maps, the error type, and the Arrow crates. A record batch is
seen row by row: its columns are read through `num_rows` and `slice` only. The
IPC writer and reader are a parameter `ArrowIpc`; `ArrowIpc.Lawful` is the
documented round trip, and `ArrowIpc.guarded` a reader that panics. `pocketIpc` is
a small codec with all the laws.
-/
open Lib.Bytes

namespace herbert

abbrev Bytes := List UInt8

/-- `HashMap<κ, α>`: unique keys, `lookup`, `insert`. -/
abbrev HashMap (κ α : Type) := AList fun _ : κ => α

/-! ## Errors -/

inductive IoError where
  | UnexpectedEof
  | Other (message : String)
deriving DecidableEq, Repr

structure ArrowError where
  message : String
deriving DecidableEq, Repr

inductive HerbertError where
  | Io (e : IoError)
  | FromUtf8
  | ComputeSize
  | Decode
  | Encode
  | PoisonError
  | Serialization
  | Deserialization
  | IndicatorError (indicator : UInt8)
  | NoTopicData
  | EmptyTopicList
  | NoPartitionData
  | NoRecordData
  | InvalidArrowIpc (message : String)
  | ArrowError (e : ArrowError)
  | SchemaError (expected found : String)
  | TopicAlreadyExists (topic : String)
  | EmptyQueue
  | NoWalFileFound
  | NoOffsetFileFound
  | RequestDecode
  | UnknownError
deriving DecidableEq, Repr

/-- How a run ends if not as it should: it panics, or returns an error. -/
inductive Fault where
  | Panic
  | Error (e : HerbertError)
deriving DecidableEq, Repr

/-! ## Record batches -/

/-- A batch with its schema in `σ` and its rows in `ρ`. -/
structure RecordBatch (σ ρ : Type) where
  schema : σ
  rows : List ρ
deriving DecidableEq, Repr

variable {σ ρ : Type}

def RecordBatch.num_rows (batch : RecordBatch σ ρ) : Nat := batch.rows.length

/-- `length` rows from `offset` on. -/
def RecordBatch.slice (batch : RecordBatch σ ρ) (offset length : Nat) : RecordBatch σ ρ :=
  { batch with rows := (batch.rows.drop offset).take length }

/-- The Arrow IPC stream format. `read` takes any bytes: the reader is assumed to
return an error for malformed ones and not to panic, except where a function has
`panics` beside it. -/
structure ArrowIpc (σ ρ : Type) where
  /-- `StreamWriter::try_new` with a schema, `write` of every batch, `finish`. -/
  write : σ → List (RecordBatch σ ρ) → Except ArrowError Bytes
  /-- `StreamReader::try_new`, then the items its iterator yields. -/
  read : Bytes → Except ArrowError (List (Except ArrowError (RecordBatch σ ρ)))
  /-- `{:?}` of a schema. -/
  debug : σ → String

/-- `StreamWriter` writes batches of its schema, and `StreamReader` reads them
back. -/
structure ArrowIpc.Lawful (ipc : ArrowIpc σ ρ) : Prop where
  read_write : ∀ s bs, (∀ b ∈ bs, b.schema = s) →
    ∃ w, ipc.write s bs = .ok w ∧ ipc.read w = .ok (bs.map .ok)

/-- The reader on the bytes it does not panic on. `panics` says on which it does, in
`try_new` or when the first batch is taken. -/
def ArrowIpc.guarded (ipc : ArrowIpc σ ρ) (panics : Bytes → Bool) : ArrowIpc σ ρ :=
  { ipc with read := fun w => if panics w then .error ⟨"panicked"⟩ else ipc.read w }

/-- The continuation marker that opens a stream. -/
def continuation : Bytes := [0xFF, 0xFF, 0xFF, 0xFF]

/-- `b"ARROW1"`, the magic of the IPC file format. -/
def arrow1 : Bytes := [65, 82, 82, 79, 87, 49]

/-- Streams are recognisable: they open with the continuation marker, the reader
stops at the end-of-stream marker, and it does not take the file format. -/
structure ArrowIpc.Framed (ipc : ArrowIpc σ ρ) : Prop extends ipc.Lawful where
  marked : ∀ s bs w, ipc.write s bs = .ok w → continuation <+: w ∧ 8 ≤ w.length
  stops : ∀ s bs w tail, (∀ b ∈ bs, b.schema = s) → ipc.write s bs = .ok w →
    ipc.read (w ++ tail) = .ok (bs.map .ok)
  no_file : ∀ w, arrow1 <+: w → ∃ e, ipc.read w = .error e

/-! ## A small codec

One schema byte, then `3, 1, r, 1, r, …, 2` for a batch, then three zero bytes. -/

namespace pocketIpc

def encode (b : RecordBatch UInt8 UInt8) : Bytes := 3 :: (b.rows.flatMap fun r => [1, r]) ++ [2]

/-- The batches of the stream; `cur` holds the rows of the one being read. -/
def decode (s : UInt8) : Option (List UInt8) → Bytes → List (Except ArrowError (RecordBatch UInt8 UInt8))
  | none, 3 :: rest => decode s (some []) rest
  | none, 0 :: _ | none, [] => []
  | some rs, 1 :: r :: rest => decode s (some (rs ++ [r])) rest
  | some rs, 2 :: rest => .ok ⟨s, rs⟩ :: decode s none rest
  | _, _ => [.error ⟨"truncated batch"⟩]

theorem decode_rows (s : UInt8) (rs rs' : List UInt8) (tail : Bytes) :
    decode s (some rs) ((rs'.flatMap fun r => [1, r]) ++ 2 :: tail) =
      .ok ⟨s, rs ++ rs'⟩ :: decode s none tail := by
  induction rs' generalizing rs with
  | nil => simp [decode]
  | cons r rs' ih => simp [decode, ih]

theorem decode_encode (s : UInt8) (bs : List (RecordBatch UInt8 UInt8)) (hs : ∀ b ∈ bs, b.schema = s)
    (tail : Bytes) : decode s none (bs.flatMap encode ++ 0 :: tail) = bs.map .ok := by
  induction bs with
  | nil => simp [decode]
  | cons b bs ih =>
    have hb : b.schema = s := hs b (by simp)
    have hrows := decode_rows s [] b.rows (bs.flatMap encode ++ 0 :: tail)
    rw [ih fun b' hb' => hs b' (by simp [hb'])] at hrows
    subst hb
    simpa [encode, decode] using hrows

end pocketIpc

open pocketIpc in
def pocketIpc : ArrowIpc UInt8 UInt8 where
  write s bs := .ok (continuation ++ s :: bs.flatMap encode ++ [0, 0, 0])
  read
    | 0xFF :: 0xFF :: 0xFF :: 0xFF :: s :: rest => .ok (decode s none rest)
    | _ => .error ⟨"not a stream"⟩
  debug s := toString s.toNat

theorem pocketIpc_framed : pocketIpc.Framed where
  read_write s bs hs := by
    refine ⟨_, rfl, ?_⟩
    simpa [pocketIpc, continuation] using pocketIpc.decode_encode s bs hs [0, 0]
  marked s bs w h := by
    cases h
    exact ⟨⟨s :: (bs.flatMap pocketIpc.encode ++ [0, 0, 0]), by simp⟩, by simp [continuation]⟩
  stops s bs w tail hs h := by
    cases h
    simpa [pocketIpc, continuation] using pocketIpc.decode_encode s bs hs (0 :: 0 :: tail)
  no_file w h := by
    obtain ⟨t, rfl⟩ := h
    exact ⟨_, by simp [pocketIpc, arrow1]; rfl⟩

end herbert
