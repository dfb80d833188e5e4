import RubixDb.Relational.IndexBuild
import RubixDb.Sql.Session

/-!
# The threads of a database

Everything that runs against one database at the same time, as one program of
`Lib.Program`: sessions with their transactions, changes of the catalog, index builds and
the sweeps of dropped indexes. A process is idle or does one of these. What they share is
the store, the locks and the cached lists of the catalog; a restart begins with empty
caches.
-/

namespace RubixDb

open Lib

inductive Task where
  | idle
  | session (s : Session)
  | ddl (d : Ddl)
  | backfill (b : Backfill)
  | sweep (s : Sweep)

inductive TaskAct where
  /-- A session begins a transaction. -/
  | begin
  | session (a : SessionAct)
  /-- The session is done with a transaction, or gives it up. -/
  | leave
  | ddl (job : DdlJob)
  | backfill (indexId : Nat)
  | sweep (indexId : Nat)
  /-- The next step of a catalog change, a build or a sweep. -/
  | next
  | abort

/-- May the transaction be dropped here? -/
def Session.canLeave (s : Session) : Bool :=
  match s.phase with
  | .active => true
  | .finished => true
  | _ => false

namespace Task

def step (cfg : Config) (seen : RelSeen) : Task → TaskAct → Option (RelEffect × Caches × Task)
  | .idle, .begin => some (.quiet, seen.shared, .session (.begin seen.durable))
  | .idle, .ddl job => some (.quiet, seen.shared, .ddl (.start job))
  | .idle, .backfill indexId =>
    (Backfill.start seen.store indexId).map fun b => (.quiet, seen.shared, .backfill b)
  | .idle, .sweep indexId =>
    (Sweep.start seen.store indexId).map fun s => (.quiet, seen.shared, .sweep s)
  | .session s, .session a => (s.step cfg seen a).map fun r => (r.1, r.2.1, .session r.2.2)
  | .session s, .leave => if s.canLeave then some (.quiet, seen.shared, .idle) else none
  | .ddl d, .next => (d.next cfg.eval seen).map fun r => (r.1, r.2.1, (r.2.2.map .ddl).getD .idle)
  | .ddl d, .abort => (d.abort seen).map fun r => (r.1, r.2.1, (r.2.2.map .ddl).getD .idle)
  | .backfill b, .next => (b.next seen).map fun r => (r.1, r.2.1, (r.2.2.map .backfill).getD .idle)
  | .backfill b, .abort => (b.abort seen).map fun r =>
    (r.1, r.2.1, (r.2.2.map .backfill).getD .idle)
  | .sweep s, .next => (s.next seen).map fun r => (r.1, r.2.1, (r.2.2.map .sweep).getD .idle)
  | .sweep s, .abort => (s.abort seen).map fun r => (r.1, r.2.1, (r.2.2.map .sweep).getD .idle)
  | _, _ => none

end Task

def database (cfg : Config) : Program LockId StoreKey StoreValue Caches Task TaskAct where
  idle := .idle
  restart := .empty
  step := Task.step cfg

abbrev Database := System LockId StoreKey StoreValue Caches Task

end RubixDb
