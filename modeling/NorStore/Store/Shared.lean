import NorStore.Store

/-! # A shared store (shared.rs)

A store that several parts of a program reach through one handle (`SharedSotp`,
`shared.rs:15-89`). Every operation takes the store for its whole run (`SharedStore.exclusive`,
which is `with`, `shared.rs:27-29`), so two operations never interleave. With one caller at a
time the store is never contended, and a shared store answers exactly as the store itself
(`exclusive_run`).
-/

namespace NorStore

variable [Crc]

/-- A store behind a handle that gives one operation at a time sole use of it. -/
structure SharedStore where
  private inner : Store

namespace SharedStore

def new (s : Store) : SharedStore := ⟨s⟩

/-- Takes the store back out of its handle. -/
def release (sh : SharedStore) : Store := sh.inner

def query {α : Type} (sh : SharedStore) (f : Store → α) : α := f sh.inner

/-- Runs one store operation with sole use of the store. -/
def exclusive {δ α : Type} (op : StateM (Store × δ) α) : StateM (SharedStore × δ) α :=
  modifyGet fun (sh, d) =>
    let (a, s, d) := op.run (sh.inner, d)
    (a, (⟨s⟩, d))

omit [Crc] in
theorem exclusive_run {δ α : Type} (op : StateM (Store × δ) α) (s : Store) (d : δ) :
    (exclusive op).run (new s, d) =
      let r := op.run (s, d)
      (r.1, (new r.2.1, r.2.2)) := by
  rfl

omit [Crc] in
@[simp] theorem release_new (s : Store) : (new s).release = s := rfl

end SharedStore

end NorStore
