import Forth.Host.Perform
import Forth.Proofs.File.Open
import Forth.Proofs.Run.Isolation
import Forth.Proofs.Session.View

/-! # Sources in the midst of a file

A word from outside can ask for a source to be processed while a session reads a
file, and what is processed can write the files anew. The session stays attached
to its file: what it holds unread is the rest of the line that it is in, and then
what the file has behind that line by now. If the file is what it was, then the
session goes on as if nothing had been processed.
-/

namespace Forth

/-- What the session holds unread is the file that it reads, as it is now. -/
def Session.Attached (s : HostedSession) : Prop :=
  ∀ f, s.hostState.reading = some f → f.Holds s.source.unread ∧ f.Current s.hostState.files

/-- The second session goes on where the first one was. -/
structure GoesOn (s u : HostedSession) : Prop where
  attached : u.Attached
  location : u.source.location = s.source.location
  /-- Nothing is different unless the file has been written. -/
  source : (∀ f, s.hostState.reading = some f →
    u.hostState.files.find? f.place = s.hostState.files.find? f.place) → u.source = s.source

/-- The request asks for a text or a file to be processed. -/
inductive Request.Processes : Request → Prop
  | text (path text : String) : Processes (.processText path text)
  | file (path : String) (contents : Option File) : Processes (.processFile path contents)

section Attached

variable {s u : HostedSession} {f : OpenFile}

theorem Session.attached_of_none (h : s.hostState.reading = none) : s.Attached := by
  intro f hf
  rw [h] at hf
  cases hf

theorem Session.attached_openFile {path : String} (h : s.hostState.files.openFile? path = some f) :
    { s with source := f.source path, hostState.reading := some f }.Attached := by
  rintro _ ⟨⟩
  exact ⟨f.holds_items, OpenFile.current_openFile h⟩

theorem Session.Attached.read (hs : s.Attached) {source : Source} (h : Source.Moved s.source source) :
    { s with source }.Attached := by
  intro f hf
  obtain ⟨hholds, hcurrent⟩ := hs f hf
  obtain ⟨taken, hunread, -⟩ := h
  rw [hunread] at hholds
  exact ⟨hholds.of_append, hcurrent⟩

theorem OpenFile.Current.congr {files others : FileTree} (h : f.Current files)
    (hsame : others.find? f.place = files.find? f.place) : f.Current others := by
  intro bytes hbytes
  exact h bytes (hsame ▸ hbytes)

/-- A session takes its file up again, whatever has been done to the files. -/
theorem Session.Attached.goesOn_resume (hs : s.Attached) (hsource : u.source = s.source) :
    GoesOn s (u.resume (s.hostState.reading.map (·.advance s.source.unread))) := by
  cases hreading : s.hostState.reading with
  | none =>
    constructor
    · exact attached_of_none rfl
    · exact congrArg Source.location hsource
    · exact fun _ => hsource
  | some f =>
    obtain ⟨hholds, hcurrent⟩ := hs f hreading
    rw [← hsource] at hholds ⊢
    constructor
    · rintro _ ⟨⟩
      exact ⟨hholds.resume _, OpenFile.current_reread _ _⟩
    · change u.source.location = s.source.location
      rw [hsource]
    · intro hkept
      have hsame : u.hostState.files.find? f.place = s.hostState.files.find? f.place :=
        hkept f hreading
      rw [← hsource]
      have hfile := ((hcurrent.advance u.source.unread).congr hsame).reread_eq
      change { u.source with unread :=
        ((f.advance u.source.unread).reread u.hostState.files).resume u.source.unread } = u.source
      rw [hfile, hholds.resume_advance]

end Attached

section Requests

variable {s : HostedSession} {r : Request}

theorem state_aside {α : Type} (reading : Option OpenFile) (m : HostedM α) (s : HostedSession) :
    (aside reading m s).state = (m { s with hostState.reading := reading }).state.resume
      (s.hostState.reading.map (·.advance s.source.unread)) := by
  rw [aside]
  cases m { s with hostState.reading := reading } <;> rfl

theorem aside_reading {α : Type} {m : HostedM α} (hm : Isolated m) (reading : Option OpenFile)
    (hnone : s.hostState.reading = none) (source : Source) :
    aside reading m (s.reading source) = (aside reading m s).mapState (Session.reading source) := by
  have hsame : m { s.reading source with hostState.reading := reading } =
      (m { s with hostState.reading := reading }).mapState (Session.reading source) :=
    hm source { s with hostState.reading := reading }
  have hnone' : (s.reading source).hostState.reading = none := hnone
  simp only [aside, hsame, hnone, hnone']
  cases m { s with hostState.reading := reading } <;> rfl

theorem map_apply {α β : Type} (f : α → β) (m : HostedM α) (s : HostedSession) :
    (f <$> m) s = (m s).trimap f id id := by
  change EStateM.map f m s = _
  rw [EStateM.map]
  cases m s <;> rfl

def Session.withFiles (files : FileTree) (s : HostedSession) : HostedSession :=
  { s with hostState.files := files }

theorem exists_writeFile_eq (path : String) (file : File) (files : FileTree) :
    ∃ written, ∀ s : HostedSession, s.hostState.files = files →
      writeFile path file s = .ok () (s.withFiles written) := by
  cases hwrite : files.write path file with
  | ok written =>
    refine ⟨written, fun s hs => ?_⟩
    rw [writeFile, modify_apply, hs, hwrite]
    rfl
  | error e =>
    refine ⟨files, fun s hs => ?_⟩
    rw [writeFile, modify_apply, hs, hwrite, ← hs]
    rfl

theorem exists_processHostedFile_eq (host : Host (List Request) Desk) (path : String)
    (files : FileTree) :
    ∃ reading m, Isolated m ∧ ∀ s : HostedSession, s.hostState.files = files →
      processHostedFile host path s = aside reading m s := by
  cases hopen : files.openFile? path with
  | some f =>
    refine ⟨f, _, .runSource host (f.source path), fun s hs => ?_⟩
    rw [processHostedFile, get_bind_apply, hs, hopen]
  | none =>
    refine ⟨none, processFile host files path, ?_, fun s hs => ?_⟩
    · rw [processFile]
      cases files.read path with
      | ok readings => exact .runSource host _
      | error e => exact .throw _
    · rw [processHostedFile, get_bind_apply, hs, hopen]

theorem Request.Processes.exists_aside (hr : r.Processes) (host : Host (List Request) Desk)
    (name : String) (s : HostedSession) :
    ∃ files reading m, Isolated m ∧ ∀ source, r.perform host name (s.reading source) =
      (aside reading m ((s.withFiles files).reading source)).trimap Reply.ending id id := by
  cases hr with
  | text path text =>
    refine ⟨s.hostState.files, none, _, .runSource host (.ofText path text), fun source => ?_⟩
    exact map_apply ..
  | file path contents =>
    cases contents with
    | none =>
      obtain ⟨reading, m, hm, heq⟩ := exists_processHostedFile_eq host path s.hostState.files
      refine ⟨s.hostState.files, reading, m, hm, fun source => ?_⟩
      have hfile := heq (s.reading source) rfl
      exact (map_apply ..).trans (congrArg _ hfile)
    | some file =>
      obtain ⟨files, hwrite⟩ := exists_writeFile_eq path file s.hostState.files
      obtain ⟨reading, m, hm, heq⟩ := exists_processHostedFile_eq host path files
      refine ⟨files, reading, m, hm, fun source => ?_⟩
      have hfile := heq ((s.reading source).withFiles files) rfl
      have hwritten := bind_of_ok (f := fun _ => Reply.ending <$> processHostedFile host path)
        (hwrite (s.reading source) rfl)
      exact hwritten.trans ((map_apply ..).trans (congrArg _ hfile))

/-- Whatever is processed, the session around it goes on where it was. -/
theorem Request.Processes.goesOn (hr : r.Processes) (host : Host (List Request) Desk)
    (name : String) (hs : s.Attached) : GoesOn s (r.perform host name s).state := by
  obtain ⟨files, reading, m, hm, hperform⟩ := hr.exists_aside host name s
  have hself : r.perform host name s =
      (aside reading m (s.withFiles files)).trimap Reply.ending id id := hperform s.source
  rw [hself, EStateM.Result.state_trimap, id_eq, state_aside]
  exact hs.goesOn_resume (hm.source_eq { s.withFiles files with hostState.reading := reading })

/-- A session that reads no file has no part in what is processed. -/
theorem Request.Processes.perform_reading (hr : r.Processes) (host : Host (List Request) Desk)
    (name : String) (hnone : s.hostState.reading = none) (source : Source) :
    r.perform host name (s.reading source) =
      (r.perform host name s).mapState (Session.reading source) := by
  obtain ⟨files, reading, m, hm, hperform⟩ := hr.exists_aside host name s
  have hself : r.perform host name s =
      (aside reading m (s.withFiles files)).trimap Reply.ending id id := hperform s.source
  rw [hperform source, hself, aside_reading (s := s.withFiles files) hm reading hnone]
  cases aside reading m (s.withFiles files) <;> rfl

theorem exists_state_note (name : String) (r : Request) (m : HostedM Reply) (s : HostedSession) :
    ∃ notes, (note name r m s).state = { (m s).state with hostState.notes := notes } := by
  rw [note]
  cases m s with
  | ok reply t => exact ⟨_, rfl⟩
  | error failure t => exact ⟨_, rfl⟩

/-- A word from outside that processes one source after another leaves the session where it was. -/
theorem attached_hostWithin (depth : Nat) {requests : List Request}
    (h : ∀ r ∈ requests, r.Processes) (name : String) (hs : s.Attached) :
    (hostWithin depth requests name s).state.Attached ∧
      (hostWithin depth requests name s).state.source.location = s.source.location := by
  cases depth with
  | zero => exact ⟨hs, rfl⟩
  | succ depth =>
    induction requests generalizing s with
    | nil => exact ⟨hs, rfl⟩
    | cons r rest ih =>
      obtain ⟨hr, hrest⟩ := List.forall_mem_cons.mp h
      let first := note name r (r.perform (hostWithin depth) name)
      have hfirst : (first s).state.Attached ∧
          (first s).state.source.location = s.source.location := by
        have hgoes := hr.goesOn (hostWithin depth) name hs
        obtain ⟨notes, hnotes⟩ := exists_state_note name r (r.perform (hostWithin depth) name) s
        rw [hnotes]
        exact ⟨hgoes.attached, hgoes.location⟩
      have hcons : hostWithin (depth + 1) (r :: rest) name s =
          (do first; hostWithin (depth + 1) rest name : HostedM Unit) s := rfl
      rw [hcons]
      cases hnote : first s with
      | ok _ t =>
        rw [hnote] at hfirst
        rw [bind_of_ok hnote]
        obtain ⟨hattached, hlocation⟩ := ih hrest hfirst.1
        exact ⟨hattached, hlocation.trans hfirst.2⟩
      | error failure t =>
        rw [hnote] at hfirst
        rw [bind_of_error hnote]
        exact hfirst

end Requests

end Forth
