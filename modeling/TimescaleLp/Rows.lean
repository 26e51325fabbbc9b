import TimescaleLp.Dict
import TimescaleLp.Versions
import TimescaleLp.Names

/-!
Rows of a measurement as both tiers store them. A row has the upsert key
`(time, tag_hash)`, the ingest sequence number and its tag and field columns; a
column that is absent reads as NULL.
-/
namespace TimescaleLp

universe u

/-- A UTC instant, in microseconds since the epoch. -/
abbrev Time := ℤ

/-- The unique index of a hypertable. -/
structure Key where
  time : Time
  tagHash : ℕ
deriving DecidableEq

/-- Tag and field columns; `none` is NULL. -/
abbrev Cells (V : Type u) := Str → Option V

structure Row (V : Type u) where
  key : Key
  seq : ℕ
  cells : Cells V

/-- What a hypertable stores under a key. -/
structure Stored (V : Type u) where
  seq : ℕ
  cells : Cells V

abbrev Table (V : Type u) := Dict Key (Stored V)

variable {V : Type u}

def Stored.row (k : Key) (s : Stored V) : Row V := ⟨k, s.seq, s.cells⟩

def Row.stored (r : Row V) : Stored V := ⟨r.seq, r.cells⟩

/-- Newest by `seq` among the rows of a key. -/
abbrev Newest (S : Set (Row V)) (k : Key) (r : Row V) : Prop :=
  Versions.Newest Row.key Row.seq S k r

abbrev Covers (S T : Set (Row V)) : Prop := Versions.Covers Row.key Row.seq S T

abbrev Distinct (S : Set (Row V)) : Prop := Versions.Distinct Row.key Row.seq S

namespace Table

def rows (t : Table V) : List (Row V) := t.entries.map (fun e => e.2.row e.1)

theorem mem_rows_iff (t : Table V) (r : Row V) :
    r ∈ rows t ↔ t.get? r.key = some r.stored := by
  rw [Dict.get?_eq_some_iff, rows, List.mem_map]
  constructor
  · rintro ⟨⟨k, s⟩, hmem, rfl⟩
    exact hmem
  · intro hmem
    exact ⟨_, hmem, rfl⟩

end Table

end TimescaleLp
