import Mathlib.Data.Fintype.Basic
import Relite.Lib.Refinement
import Relite.Vm.Ddl
import Relite.Vm.GroupBy
import Relite.Vm.Session

/-!
# Sessions that share what is staged

Several sessions send their statements to one database, each with a transaction number of its
own. What they stage goes to one list. The sessions are compared with sessions that have a list
each, and stay like these as long as one at a time has something staged.
-/
namespace Relite.Vm
open Lib Semantic Txn

namespace Db

/-- The database with other changes staged. -/
def withPending (db : Db) (pending : List Change) : Db :=
  { db with versions := { db.versions with pending } }

@[simp] theorem pending_withPending (db : Db) (p : List Change) :
    (db.withPending p).versions.pending = p := rfl

@[simp] theorem withPending_withPending (db : Db) (p q : List Change) :
    (db.withPending p).withPending q = db.withPending q := rfl

@[simp] theorem withPending_self (db : Db) : db.withPending db.versions.pending = db := rfl

end Db

/-! ## Programs that do not look at what is staged -/

namespace Exec

variable {α β : Type}

/-- What the program does has nothing to do with what is staged. -/
def Blind (x : Exec α) : Prop :=
  ∀ db p, x.run (db.withPending p) = ((x.run db).1, (x.run db).2.withPending p)

namespace Blind

theorem ret (a : α) : Blind (Prog.ret a : Exec α) := fun _ _ => rfl

theorem throw (e : String) : Blind (Prog.throw e : Exec α) := fun _ _ => rfl

theorem bind {x : Exec α} {f : α → Exec β} (hx : Blind x) (hf : ∀ a, Blind (f a)) :
    Blind (Prog.bind x f) := by
  intro db p
  rw [run_bind, run_bind, hx db p]
  generalize x.run db = r
  obtain ⟨outcome, db'⟩ := r
  cases outcome with
  | error e => rfl
  | ok a => exact hf a db' p

theorem get_bind {f : Db → Exec β} (hsame : ∀ db p, f (db.withPending p) = f db)
    (hf : ∀ db, Blind (f db)) : Blind (Prog.bind Exec.get f) := by
  intro db p
  rw [run_bind, run_bind, run_get, run_get]
  change (f (db.withPending p)).run (db.withPending p) = _
  rw [hsame]
  exact hf db db p

theorem perform {c : Call} (hc : ∀ db p, c.apply (db.withPending p) =
    ((c.apply db).1.withPending p, (c.apply db).2)) : Blind (Prog.perform c : Exec RecordID) := by
  intro db p
  rw [run_perform, run_perform, hc]

theorem call {c : Call} (hc : ∀ db p, c.apply (db.withPending p) =
    ((c.apply db).1.withPending p, (c.apply db).2)) : Blind (Exec.call c) :=
  (perform hc).bind fun _ => ret _

theorem ofExcept (e : Except String α) : Blind (Exec.ofExcept e) := by
  cases e with
  | ok a => exact ret a
  | error e => exact throw e

theorem forM {f : α → Exec Unit} (hf : ∀ a, Blind (f a)) (l : List α) : Blind (l.forM f) := by
  induction l with
  | nil => exact ret _
  | cons a l ih => exact (hf a).bind fun _ => ih

theorem foldlM {f : β → α → Exec β} (hf : ∀ b a, Blind (f b a)) (l : List α) (b : β) :
    Blind (l.foldlM f b) := by
  induction l generalizing b with
  | nil => exact ret _
  | cons a l ih => exact (hf b a).bind ih

end Blind

theorem blind_lockOrThrow (rid : RecordID) (exclusive : Bool) :
    Blind (lockOrThrow rid exclusive) := by
  refine .get_bind (fun _ _ => rfl) fun db => ?_
  generalize (if exclusive then LockMode.Exclusive else LockMode.Shared) = mode
  dsimp only
  split
  · exact .call fun _ _ => rfl
  · exact .throw _

theorem blind_lockInTxn (rid : RecordID) (exclusive : Bool) : Blind (lockInTxn rid exclusive) := by
  refine Blind.bind (Blind.get_bind (fun _ _ => rfl) fun _ => .ret _) fun active => ?_
  split
  · exact blind_lockOrThrow _ _
  · exact .ret _

theorem blind_clauseRows (tableId : TableId) (when? : Option Where) :
    Blind (clauseRows tableId when?) := by
  refine .get_bind (fun _ _ => rfl) fun db => ?_
  split
  · exact .get_bind (fun _ _ => rfl) fun _ => .ret _
  · exact .get_bind (fun _ _ => rfl) fun _ => .ret _

theorem blind_gatherRows (tableId : TableId) (schema : Schema) (when? : Option Where) :
    Blind (gatherRows tableId schema when?) := by
  refine (blind_clauseRows _ _).bind fun rows => .foldlM (fun acc row => ?_) _ _
  refine (Blind.ofExcept _).bind fun found => ?_
  split
  · exact (blind_lockInTxn _ _).bind fun _ => .ret _
  · exact .ret _

theorem blind_addKeys (keys : List (String × Value)) (rid : RecordID) :
    Blind (addKeys keys rid) := .forM (fun _ => .call fun _ _ => rfl) _

theorem blind_createUnlessExists (tableId : TableId) (ts : TableSchema) (idxName : String)
    (columns : List Int) : Blind (createUnlessExists tableId ts idxName columns) := by
  refine .get_bind (fun _ _ => rfl) fun db => ?_
  dsimp only
  split
  · exact .ret _
  · exact (Blind.call fun _ _ => rfl).bind fun _ => .call fun _ _ => rfl

theorem blind_createKeyIndexes (tableId : TableId) (ts : TableSchema) :
    Blind (createKeyIndexes tableId ts) := by
  refine Blind.bind (.forM (fun column => ?_) _) fun _ => ?_
  · dsimp only
    split
    · exact blind_createUnlessExists _ _ _ _
    · exact .ret _
  · split
    · exact blind_createUnlessExists _ _ _ _
    · exact .ret _

/-- A BUILD RELATION without a query. -/
theorem blind_visitCreate {node : CreateStatement} (h : node.asQuery = none) :
    Blind (visitCreate node) := by
  refine (Blind.call fun _ _ => rfl).bind fun _ => .get_bind (fun _ _ => rfl) fun db => ?_
  rw [h]
  dsimp only
  split
  · exact (blind_createKeyIndexes _ _).bind fun _ => .ret _
  · exact .ret _

theorem blind_visitCreateIdx (node : CreateIdxStatement) : Blind (visitCreateIdx node) := by
  refine .get_bind (fun _ _ => rfl) fun db => (Blind.call fun _ _ => rfl).bind fun _ => ?_
  dsimp only
  split
  · refine Blind.get_bind (fun _ _ => rfl) fun db' => Blind.bind ?_ fun rows => ?_
    · exact .get_bind (fun _ _ => rfl) fun _ => .ret _
    · refine Blind.bind (.forM (fun row => ?_) _) fun _ => .ret _
      exact (Blind.ofExcept _).bind fun _ => blind_addKeys _ _
  · exact .ret _

/-- A DISCARD. -/
theorem blind_visitDrop {node : DropStatement} (h : node.truncate = false) :
    Blind (visitDrop node) := by
  rw [visitDrop, if_neg (by simp [h])]
  split
  · exact (Blind.call fun _ _ => rfl).bind fun _ => .ret _
  · split
    · exact .ret _
    · exact (Blind.call fun _ _ => rfl).bind fun _ => (Blind.call fun _ _ => rfl).bind fun _ =>
        .ret _

theorem blind_visitAlter (node : AlterStatement) : Blind (visitAlter node) := by
  refine .get_bind (fun _ _ => rfl) fun db => (blind_gatherRows _ _ _).bind fun rows => ?_
  refine (Blind.call fun _ _ => rfl).bind fun _ => (Blind.call fun _ _ => rfl).bind fun _ => ?_
  refine (Blind.call fun _ _ => rfl).bind fun _ => ?_
  refine Blind.bind (.forM (fun row => .call fun _ _ => rfl) _) fun _ => ?_
  exact (Blind.call fun _ _ => rfl).bind fun _ => .ret _

/-- Outside a transaction a FETCH reads the heap. -/
theorem run_sourceRows_outside {db : Db} (h : db.currentTxn = 0) (p : List Change)
    (tableId : TableId) (schema : Schema) (when? : Option Parser.Expression) :
    (sourceRows tableId schema when?).run (db.withPending p) =
      (((sourceRows tableId schema when?).run db).1,
        ((sourceRows tableId schema when?).run db).2.withPending p) := by
  have hrows : ∀ db : Db, db.currentTxn = 0 → (sourceRows tableId schema when?).run db =
      Exec.run (Prog.bind (gatherRows tableId schema
        (when?.map fun e => (evalExpression e, indexCandidates e tableId)))
        fun rows => .ret (rows.map Prod.snd)) db := by
    intro db h
    have hnone : (if db.txnActive then db.versions.snapshotVersionOf db.currentTxn else none) =
        none := if_neg (by simp [Db.txnActive, h])
    rw [sourceRows, Prog.bind_eq, run_bind, run_get]
    dsimp only
    rw [hnone]
    rfl
  rw [hrows db h, hrows (db.withPending p) h]
  exact (blind_gatherRows _ _ _).bind (fun _ => .ret _) db p

end Exec

/-! ## Sessions -/

/-- What a session sends. A FETCH is seen through the rows of a table that it starts from. -/
inductive SessionRequest
  | change (s : Statement)
  | create (node : CreateStatement)
  | createIdx (node : CreateIdxStatement)
  | drop (node : DropStatement)
  | alter (node : AlterStatement)
  | transaction (kind : TransactionKind)
  | fetch (tableId : TableId) (when? : Option Parser.Expression)

def fetchRows (tableId : TableId) (when? : Option Parser.Expression) : Exec ResultSet := do
  let schema := (← Exec.get).catalog.loadSchema tableId
  return { isQuery := true, rows := ← sourceRows tableId schema when? }

/-- What the request answers, and the database it leaves, also when it throws. -/
def SessionRequest.run (depth : Nat) : SessionRequest → Db → Except String ResultSet × Db
  | change s, db => (s.exec depth).run db
  | create node, db => (Exec.visitCreate node).run db
  | createIdx node, db => (Exec.visitCreateIdx node).run db
  | drop node, db => (Exec.visitDrop node).run db
  | alter node, db => (Exec.visitAlter node).run db
  | transaction kind, db =>
    (.ok { message := (db.visitTransaction kind).2 }, (db.visitTransaction kind).1)
  | fetch tableId when?, db => (fetchRows tableId when?).run db

variable {ι : Type} [DecidableEq ι]

/-- The database that the sessions share, and the variable of each for its transaction. -/
structure Sessions (ι : Type) where
  db : Db
  current : ι → TxnId

namespace Sessions

/-- The database as the session's engine sees it. -/
def enter (s : Sessions ι) (i : ι) : Db := { s.db with currentTxn := s.current i }

def leave (s : Sessions ι) (i : ι) (db : Db) : Sessions ι :=
  { db, current := Function.update s.current i db.currentTxn }

def step (depth : Nat) (s : Sessions ι) (o : ι × SessionRequest) : Sessions ι :=
  s.leave o.1 (o.2.run depth (s.enter o.1)).2

def machine (depth : Nat) : Machine (Sessions ι) (ι × SessionRequest) (Except String ResultSet) where
  step := step depth
  answer s o := (o.2.run depth (s.enter o.1)).1

/-- No session has sent anything yet. -/
def start (db : Db) : Sessions ι := ⟨db, fun _ => 0⟩

end Sessions

/-! ## Sessions of which each has a list of its own -/

/-- Each session's own staged changes. -/
structure OwnSessions (ι : Type) where
  sessions : Sessions ι
  own : ι → List Change

namespace OwnSessions

/-- The database as the session is to see it: of what is staged, only its own changes. -/
def enter (s : OwnSessions ι) (i : ι) : Db := (s.sessions.enter i).withPending (s.own i)

/-- What the session's transaction has staged. A transaction begins with nothing staged. -/
def stagedBy (s : OwnSessions ι) (i : ι) (r : SessionRequest) (db : Db) : List Change :=
  match r with
  | .transaction .Begin => if s.sessions.current i = 0 then [] else s.own i
  | _ => db.versions.pending

def step (depth : Nat) (s : OwnSessions ι) (o : ι × SessionRequest) : OwnSessions ι :=
  let db := (o.2.run depth (s.enter o.1)).2
  { sessions := s.sessions.leave o.1 db
    own := Function.update s.own o.1 (s.stagedBy o.1 o.2 db) }

/-- The other sessions have nothing staged. -/
def Alone (s : OwnSessions ι) (i : ι) : Prop := ∀ j, j ≠ i → s.own j = []

/-- No session publishes, discards or reads staged changes, or stages its own, while another one
has something staged. A transaction does not begin with something staged that is left from a
statement before it, and a BUILD RELATION AS is not part of a transaction. -/
def Undisturbed (s : OwnSessions ι) (o : ι × SessionRequest) : Prop :=
  match o.2 with
  | .change _ => s.Alone o.1
  | .create node => node.asQuery.isSome → s.Alone o.1 ∧ s.sessions.current o.1 = 0
  | .createIdx _ => True
  | .drop node => node.truncate = true → s.Alone o.1
  | .alter _ => True
  | .transaction .Begin => s.sessions.current o.1 = 0 → s.own o.1 = []
  | .transaction _ => s.sessions.current o.1 ≠ 0 → s.Alone o.1
  | .fetch _ _ => s.sessions.current o.1 ≠ 0 → s.Alone o.1

instance [Fintype ι] (s : OwnSessions ι) (i : ι) : Decidable (s.Alone i) :=
  inferInstanceAs (Decidable (∀ j, j ≠ i → s.own j = []))

instance [Fintype ι] (s : OwnSessions ι) : (o : ι × SessionRequest) → Decidable (s.Undisturbed o)
  | (i, .change _) => inferInstanceAs (Decidable (s.Alone i))
  | (i, .create node) => inferInstanceAs
      (Decidable (node.asQuery.isSome → s.Alone i ∧ s.sessions.current i = 0))
  | (_, .createIdx _) => isTrue trivial
  | (i, .drop node) => inferInstanceAs (Decidable (node.truncate = true → s.Alone i))
  | (_, .alter _) => isTrue trivial
  | (i, .transaction .Begin) => inferInstanceAs
      (Decidable (s.sessions.current i = 0 → s.own i = []))
  | (i, .transaction .Commit) => inferInstanceAs
      (Decidable (s.sessions.current i ≠ 0 → s.Alone i))
  | (i, .transaction .Rollback) => inferInstanceAs
      (Decidable (s.sessions.current i ≠ 0 → s.Alone i))
  | (i, .fetch _ _) => inferInstanceAs (Decidable (s.sessions.current i ≠ 0 → s.Alone i))

/-- What the sessions are to do and to answer. -/
def specification (depth : Nat) :
    Specification (OwnSessions ι) (ι × SessionRequest) (Except String ResultSet) where
  Valid := Undisturbed
  Allowed s o answer := answer = (o.2.run depth (s.enter o.1)).1
  next s o _ := s.step depth o

instance [Fintype ι] (depth : Nat) (s : OwnSessions ι) (o : ι × SessionRequest) :
    Decidable ((specification depth).Valid s o) := inferInstanceAs (Decidable (s.Undisturbed o))

def start (db : Db) : OwnSessions ι := ⟨.start db, fun _ => []⟩

end OwnSessions

/-- The sessions are in the same transactions, and their database is the same, with the same
published changes. Of the staged changes those of each session are there, and no others. -/
structure Matches (s : Sessions ι) (t : OwnSessions ι) : Prop where
  current : s.current = t.sessions.current
  db : ∃ i, t.Alone i ∧ s.db = t.sessions.db.withPending (t.own i)

/-- What the version store does in a step of a session's transaction, it does with what the session
itself has staged. -/
def Isolated (p : Sessions ι × OwnSessions ι) (o : ι × SessionRequest) : Prop :=
  let versions := p.1.db.versions
  let own : VersionStore := { versions with pending := p.2.own o.1 }
  p.1.current o.1 ≠ 0 →
    match o.2 with
    | .transaction .Commit => versions.commitPending = own.commitPending
    | .transaction .Rollback => versions.pending = own.pending
    | .fetch _ _ => ∀ tableId snap, versions.snapshotForTxn tableId snap = own.snapshotForTxn tableId snap
    | _ => True

/-- From the first request on, the sessions answer and leave behind what they would if each had a
list of its own, and their transactions publish, drop and read what they have staged themselves. -/
def IsolatedRun (depth : Nat) (db : Db) (requests : List (ι × SessionRequest)) : Prop :=
  Refines (Sessions.machine depth) (OwnSessions.specification depth) Matches (.start db) (.start db)
      requests ∧
    AllSteps (sideBySide (Sessions.machine depth) (OwnSessions.specification depth)) Isolated
      (.start db, .start db) requests

/-- What the request does there has nothing to do with what is staged. -/
def SessionRequest.BlindAt (depth : Nat) (r : SessionRequest) (db : Db) : Prop :=
  ∀ p, r.run depth (db.withPending p) = ((r.run depth db).1, (r.run depth db).2.withPending p)

namespace SessionRequest

variable (depth : Nat) {db : Db}

theorem blindAt_begin : (transaction .Begin).BlindAt depth db := by
  intro p
  by_cases h : db.currentTxn = 0
  · simp [run, Db.visitTransaction, Db.withPending, h, Db.begin, VersionStore.beginSnapshot]
  · simp [run, Db.visitTransaction, Db.withPending, h]

theorem blindAt_end {kind : TransactionKind} (hkind : kind ≠ .Begin) (h : db.currentTxn = 0) :
    (transaction kind).BlindAt depth db := by
  intro p
  cases kind with
  | Begin => exact absurd rfl hkind
  | Commit => simp [run, Db.visitTransaction, Db.withPending, h]
  | Rollback => simp [run, Db.visitTransaction, Db.withPending, h]

theorem blindAt_fetch (tableId : TableId) (when? : Option Parser.Expression)
    (h : db.currentTxn = 0) : (fetch tableId when?).BlindAt depth db := by
  intro p
  have hrows := Exec.run_sourceRows_outside h p tableId (db.catalog.loadSchema tableId) when?
  have hcatalog : (db.withPending p).catalog = db.catalog := rfl
  simp only [run, fetchRows, Prog.bind_eq, Exec.run_bind, Exec.run_get, hcatalog, hrows]
  generalize (sourceRows tableId (db.catalog.loadSchema tableId) when?).run db = out
  obtain ⟨outcome, db'⟩ := out
  cases outcome <;> rfl

end SessionRequest

namespace Matches

variable {s : Sessions ι} {t : OwnSessions ι} {i : ι} {r : SessionRequest} (depth : Nat)

omit [DecidableEq ι] in
theorem start (db : Db) (h : db.versions.pending = []) (i : ι) :
    Matches (.start db) (.start db : OwnSessions ι) where
  current := rfl
  db := ⟨i, fun _ _ => rfl, by simp [Sessions.start, OwnSessions.start, ← h]⟩

omit [DecidableEq ι] in
theorem enter_eq (h : Matches s t) (i : ι) :
    ∃ owner, t.Alone owner ∧ s.enter i = (t.sessions.enter i).withPending (t.own owner) := by
  obtain ⟨owner, halone, hdb⟩ := h.db
  refine ⟨owner, halone, ?_⟩
  simp only [Sessions.enter, hdb, h.current]
  rfl

/-- Alone, a session finds what it has staged itself. -/
theorem enter_alone (h : Matches s t) (halone : t.Alone i) : s.enter i = t.enter i := by
  obtain ⟨owner, howner, henter⟩ := h.enter_eq i
  rw [henter, OwnSessions.enter]
  by_cases hi : owner = i
  · rw [hi]
  · rw [halone owner hi, howner i (Ne.symm hi)]

/-- A step of a session that is alone, in which it does not begin a transaction. -/
theorem step_alone (h : Matches s t) (halone : t.Alone i)
    (hown : ∀ db : Db, t.stagedBy i r db = db.versions.pending) :
    (r.run depth (s.enter i)).1 = (r.run depth (t.enter i)).1 ∧
      Matches (s.step depth (i, r)) (t.step depth (i, r)) := by
  rw [Sessions.step, OwnSessions.step, h.enter_alone halone, hown]
  refine ⟨rfl, ⟨?_, i, fun j hj => ?_, ?_⟩⟩
  · simp only [Sessions.leave, h.current]
  · simp only [Function.update_of_ne hj]
    exact halone j hj
  · simp [Sessions.leave]

/-- A step in which it does not matter what is staged. -/
theorem step_blind (h : Matches s t) (hblind : r.BlindAt depth (t.sessions.enter i))
    (hown : ∀ db : Db, db.versions.pending = t.own i → t.stagedBy i r db = t.own i) :
    (r.run depth (s.enter i)).1 = (r.run depth (t.enter i)).1 ∧
      Matches (s.step depth (i, r)) (t.step depth (i, r)) := by
  obtain ⟨owner, howner, henter⟩ := h.enter_eq i
  rw [Sessions.step, OwnSessions.step, OwnSessions.enter, henter, hblind, hblind]
  have hkept : Function.update t.own i (t.stagedBy i r
      ((r.run depth (t.sessions.enter i)).2.withPending (t.own i))) = t.own := by
    rw [hown _ rfl, Function.update_eq_self]
  refine ⟨rfl, ⟨?_, owner, ?_, ?_⟩⟩
  · simp only [Sessions.leave, h.current]
    rfl
  · simp only [hkept]
    exact howner
  · simp only [hkept]
    rfl

omit [DecidableEq ι] in
theorem stagedBy_eq (h : r ≠ .transaction .Begin) (db : Db) :
    t.stagedBy i r db = db.versions.pending := by
  unfold OwnSessions.stagedBy
  split
  · exact absurd rfl h
  · rfl

theorem step (h : Matches s t) (hvalid : t.Undisturbed (i, r)) :
    (r.run depth (s.enter i)).1 = (r.run depth (t.enter i)).1 ∧
      Matches (s.step depth (i, r)) (t.step depth (i, r)) := by
  have halone (hr : r ≠ .transaction .Begin) (ha : t.Alone i) :=
    h.step_alone depth ha (stagedBy_eq hr)
  have hblind (hr : r ≠ .transaction .Begin) (hb : r.BlindAt depth (t.sessions.enter i)) :=
    h.step_blind depth hb fun db hdb => (stagedBy_eq hr db).trans hdb
  cases r with
  | change s => exact halone nofun hvalid
  | create node =>
    cases hq : node.asQuery with
    | none => exact hblind nofun fun p => Exec.blind_visitCreate hq _ p
    | some q => exact halone nofun (hvalid (by simp [hq])).1
  | createIdx node => exact hblind nofun fun p => Exec.blind_visitCreateIdx node _ p
  | drop node =>
    cases ht : node.truncate with
    | false => exact hblind nofun fun p => Exec.blind_visitDrop ht _ p
    | true => exact halone nofun (hvalid ht)
  | alter node => exact hblind nofun fun p => Exec.blind_visitAlter node _ p
  | transaction kind =>
    by_cases hkind : kind = .Begin
    · subst hkind
      refine h.step_blind depth (SessionRequest.blindAt_begin depth) fun db _ => ?_
      dsimp only [OwnSessions.stagedBy]
      split
      · rename_i hout
        exact (hvalid hout).symm
      · rfl
    · have hr : SessionRequest.transaction kind ≠ .transaction .Begin := by simpa using hkind
      by_cases hout : t.sessions.current i = 0
      · exact hblind hr (SessionRequest.blindAt_end depth hkind hout)
      · refine halone hr ?_
        cases kind with
        | Begin => exact absurd rfl hkind
        | Commit => exact hvalid hout
        | Rollback => exact hvalid hout
  | fetch tableId when? =>
    by_cases hout : t.sessions.current i = 0
    · exact hblind nofun (SessionRequest.blindAt_fetch depth tableId when? hout)
    · exact halone nofun (hvalid hout)

end Matches

theorem Matches.isolated {s : Sessions ι} {t : OwnSessions ι} (h : Matches s t)
    {o : ι × SessionRequest} (hvalid : t.Undisturbed o) : Isolated (s, t) o := by
  obtain ⟨i, r⟩ := o
  intro hin
  have hown : t.Alone i → s.db.versions = { s.db.versions with pending := t.own i } := by
    intro halone
    have henter := congrArg Db.versions (h.enter_alone halone)
    have hversions : s.db.versions = { t.sessions.db.versions with pending := t.own i } := henter
    rw [hversions]
  rw [h.current] at hin
  cases r with
  | transaction kind =>
    cases kind with
    | Begin => trivial
    | Commit => exact congrArg _ (hown (hvalid hin))
    | Rollback => exact congrArg _ (hown (hvalid hin))
  | fetch tableId when? =>
    exact fun tableId snap => congrArg (fun vs => vs.snapshotForTxn tableId snap) (hown (hvalid hin))
  | _ => trivial

/-- In a run in which no session is disturbed, SAVE publishes what the session's own statements
have staged, UNDO drops it, a FETCH in a transaction reads it, and nothing that another session has
staged is published, dropped or read. -/
theorem sessions_isolated (depth : Nat) (db : Db) (hdb : db.versions.pending = []) (i : ι)
    (requests : List (ι × SessionRequest))
    (hvalid : ValidRun (Sessions.machine depth) (OwnSessions.specification depth) (.start db)
      (.start db) requests) : IsolatedRun depth db requests := by
  have hstart : Matches (.start db) (.start db : OwnSessions ι) := .start db hdb i
  have hkeep : ∀ (p : Sessions ι × OwnSessions ι) o, Matches p.1 p.2 → p.2.Undisturbed o →
      Matches (p.1.step depth o) (p.2.step depth o) := fun _ _ h hv => (h.step depth hv).2
  have hisolated : ∀ (p : Sessions ι × OwnSessions ι) o, Matches p.1 p.2 → p.2.Undisturbed o →
      Isolated p o := fun _ _ h hv => h.isolated hv
  exact ⟨refines_of_simulation (fun _ _ h => h) (fun _ _ _ h hv => h.step depth hv) hstart hvalid,
    AllSteps.imp hkeep hisolated hstart hvalid⟩

/-- A reading transaction, whose snapshot another session's change does not get into, and a writing
one. -/
theorem sessions_isolated_turns : IsolatedRun 1 numbersDb
    [(true, .transaction .Begin), (false, .change (.put [1])), (true, .fetch 1 none),
      (true, .change (.put [2])), (true, .transaction .Commit)] :=
  sessions_isolated 1 numbersDb rfl true _ (by unfold ValidRun; decide +kernel)

/-- A row that a transaction puts is dropped by the PUT of another session, and SAVE does not
publish it. -/
theorem sessions_not_isolated : ¬IsolatedRun 1 numbersDb
    [(true, .transaction .Begin), (true, .change (.put [1])), (false, .change (.put [2])),
      (true, .transaction .Commit)] := by
  rintro ⟨⟨-, hstates⟩, -⟩
  obtain ⟨i, -, hdb⟩ := hstates.last.db
  have hlog := congrArg (fun db : Db => db.versions.log.length) hdb
  dsimp only [Db.withPending] at hlog
  revert hlog
  decide +kernel

end Relite.Vm
