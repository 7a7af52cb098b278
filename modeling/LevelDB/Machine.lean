import LevelDB.Recovery

/-! The database as a state machine. A label names the party that moves and the outcome
of its I/O; a run is any sequence of labels that the state allows. -/
namespace LevelDB

variable {K V : Type} [LinearOrder K]

inductive Label (K V : Type) where
  | enter (id : Nat) (batch : Option (WriteBatch K V)) (sync : Bool)
  | lead
  | makeRoom (newFile close : Status)
  | addRecord (outcome : Append)
  | syncLog (status : Status)
  | insertInto
  | finishWrite
  | getSnapshot
  | releaseSnapshot (snapshot : Nat)
  | awaitFlush (id : Nat)
  | requestCompaction (level : Nat) (first last : Option K)
  | beginFlush
  | buildTable (status : Status)
  | pick (trigger : Trigger K)
  | pickManual
  | advanceCompaction (status : Status)
  | finishCompaction (status : Status)
  | appendManifest (status : Status)
  | syncManifest (status : Status)
  | installVersion (pinned : Nat → Bool)
  | removeFile (f : FileName)
  | removeDone
  | crash (cut : Cut)
  | openDb
  | newDb
  | recover
  | replay
  | openCommit

/-- The steps of an open database. -/
def State.stepDb (o : Options K V) (s : State K V) (db : Db K V) : Label K V → Option (State K V)
  | .enter id batch sync => s.enter db id batch sync
  | .lead => s.lead db
  | .makeRoom newFile close => s.makeRoom o db newFile close
  | .addRecord outcome => s.addRecord db outcome
  | .syncLog status => s.syncLog db status
  | .insertInto => s.insertInto db
  | .finishWrite => s.finishWrite db
  | .getSnapshot => some (s.getSnapshot db)
  | .releaseSnapshot snapshot => some (s.releaseSnapshot db snapshot)
  | .awaitFlush id => s.awaitFlush db id
  | .requestCompaction level first last => s.requestCompaction db level first last
  | .beginFlush => s.beginFlush db
  | .buildTable status => s.buildTable o db status
  | .pick trigger => s.pick o db trigger
  | .pickManual => s.pickManual o db
  | .advanceCompaction status => s.advanceCompaction o db status
  | .finishCompaction status => s.finishCompaction o db status
  | .appendManifest status => s.appendManifest db status
  | .syncManifest status => s.syncManifest db status
  | .installVersion pinned => s.installVersion db pinned
  | .removeFile f => s.removeFile db f
  | .removeDone => s.removeDone db
  | _ => none

/-- The steps of `DB::Open`. -/
def State.stepOpen (o : Options K V) (s : State K V) : Label K V → Option (State K V)
  | .openDb => s.openDb
  | .newDb => s.newDb
  | .recover => s.recover
  | .replay => s.replay o
  | .openCommit => s.openCommit
  | _ => none

def State.step (o : Options K V) (s : State K V) (l : Label K V) : Option (State K V) :=
  match l, s.process with
  | .crash cut, _ => some (s.crash cut)
  | l, .running db => s.stepDb o db l
  | l, _ => s.stepOpen o l

def State.run (o : Options K V) (s : State K V) : List (Label K V) → Option (State K V)
  | [] => some s
  | l :: rest => (s.step o l).bind fun next => next.run o rest

theorem State.run_append (o : Options K V) (s : State K V) (ls ls' : List (Label K V)) :
    s.run o (ls ++ ls') = (s.run o ls).bind fun next => next.run o ls' := by
  induction ls generalizing s with
  | nil => rfl
  | cons l rest ih =>
    rw [List.cons_append,State.run,State.run,Option.bind_assoc]
    exact congrArg _ (funext fun next => ih next)

end LevelDB
