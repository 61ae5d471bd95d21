import Otpo.ReportedOnce

/-!
# The file that is opened

Whatever the calls of `fopen` return, the file of the selected benchmark alone
is to be opened, and to be closed once.
-/

set_option autoImplicit false

namespace Otpo.OutputFile
open Otpo.ParamList Otpo.BadRuns Otpo.ResultFile Otpo.ParseLine
open Otpo.UpdateRequest Otpo.ScannerRuns Otpo.ReportedOnce

section Claim

variable (conv : Conversions) (contents : Test → List Text) (opens : ℕ → Open) (test : Test)

def handles (es : List Event) : List (FileHandle.Event Test) :=
  es.filterMap fun e =>
    match e with
    | .update _ => none
    | .handle event => some event

def Orderly (a : Action Status) : Prop :=
  (∀ e ∈ handles a.events, ∀ file ∈ e.file?, file = test) ∧
    (a.outcome = some (.ok .success) → FileHandle.Disciplined (handles a.events))

def Handled : Prop :=
  ∀ fuel, Orderly test (UpdateRequest.updateAdclRequest conv contents opens test fuel)

def Finishes : Prop := ∃ fuel, (scan conv test fuel (contents test)).outcome = some (.ok ())

/-- What `fopen` may return. MPI-Tile-IO must not be interrupted at once, and NPB
must not come to open its file. -/
def Sound : Prop :=
  match test with
  | .netpipe | .latencyIo | .noncontig => True
  | .mpiTileIo => opens 0 ≠ .interrupted
  | .npb => ¬ ∃ n, opens n = .success ∧ ∀ i < n, opens i = .interrupted
  | .skampi => False

end Claim

section Events

variable {conv : Conversions} {contents : Test → List Text} {opens : ℕ → Open} {test : Test}
variable {lines : List Text} {p : Text → Bool} {a : Action Status} {es fs : List Event} {fuel : ℕ}

theorem handles_append (es fs : List Event) : handles (es ++ fs) = handles es ++ handles fs :=
  List.filterMap_append

def Scanning (es : List Event) : Prop := ∀ e ∈ es, e = used ∨ ∃ value, e = .update value

theorem scanning_used (h : ∀ e ∈ es, e = used) : Scanning es := fun e he => Or.inl (h e he)

theorem scanning_update (value : Option ℚ) : Scanning [.update value] :=
  List.forall_mem_singleton.mpr (Or.inr ⟨value, rfl⟩)

theorem scanning_handles (h : Scanning es) : ∀ e ∈ handles es, e = .used := by
  intro e he
  obtain ⟨e', he', heq⟩ := List.mem_filterMap.mp he
  rcases h e' he' with rfl | ⟨value, rfl⟩
  · cases heq
    rfl
  · cases heq

theorem scanning_netpipe (lines : List Text) : Scanning (scanNetpipe conv lines).events := by
  induction lines with
  | nil => exact scanning_used fun e he => List.mem_singleton.mp he
  | cons l lines ih =>
    rw [scanNetpipe, Traced.emit_bind, Traced.emit_bind]
    refine List.forall_mem_cons.mpr ⟨Or.inl rfl, List.forall_mem_cons.mpr ⟨Or.inr ?_, ih⟩⟩
    exact ⟨_, rfl⟩

theorem scanning_skampi (lines : List Text) : Scanning (scanSkampi conv lines).events := by
  refine Traced.forall_events_bind.mpr ⟨?_, fun _ _ => ?_⟩
  · exact scanning_used fun e he => List.eq_of_mem_replicate he
  · split
    · exact List.forall_mem_nil _
    · exact scanning_update _

theorem scanning_search {tokenOf : Text → Except Fault Text} {value : Text → ℚ} :
    Scanning (search p tokenOf value fuel lines).events := by
  refine Traced.forall_events_bind.mpr ⟨scanning_used find_line_used, fun l _ => ?_⟩
  exact Traced.forall_events_bind.mpr ⟨List.forall_mem_nil _, fun t _ => scanning_update _⟩

theorem scanning_scan : Scanning (scan conv test fuel lines).events := by
  cases test with
  | netpipe => exact scanning_netpipe lines
  | skampi => exact scanning_skampi lines
  | npb =>
    exact Traced.forall_events_bind.mpr ⟨scanning_used npb_lines_used, fun _ _ =>
      scanning_update _⟩
  | latencyIo =>
    rw [latency_io_search]
    exact scanning_search
  | noncontig =>
    rw [noncontig_search]
    exact scanning_search
  | mpiTileIo => exact scanning_search

end Events

section Orderly

variable {conv : Conversions} {contents : Test → List Text} {opens : ℕ → Open} {test : Test}
variable {a : Action Status} {es : List Event} {fuel : ℕ}

theorem orderly_running : Orderly test Traced.running :=
  ⟨List.forall_mem_nil _, (fun h => by cases h)⟩

/-- A refused file leaves the rest as it is. -/
theorem orderly_refused :
    Orderly test (do Traced.emit (Event.handle (.refused test)); a) ↔ Orderly test a := by
  rw [Traced.emit_bind]
  change (∀ e ∈ .refused test::handles a.events, _) ∧ _ ↔ _
  constructor
  · exact fun h => ⟨(List.forall_mem_cons.mp h.1).2, h.2⟩
  · refine fun h => ⟨List.forall_mem_cons.mpr ⟨fun file hfile => ?_, h.1⟩, h.2⟩
    exact (Option.mem_some.mp hfile).symm

theorem handled_files (h : ∀ e ∈ es, ∀ event, e = .handle event → event.file? = none) :
    ∀ e ∈ handles es, e.file? = none := by
  intro e he
  obtain ⟨e', he', heq⟩ := List.mem_filterMap.mp he
  cases e' with
  | handle event =>
    cases heq
    exact h _ he' _ rfl
  | update value => cases heq

/-- Behind the opening no file is named. -/
theorem read_files : ∀ e ∈ handles (readFile conv contents test fuel).events, e.file? = none := by
  refine handled_files (Traced.forall_events_bind.mpr ⟨fun e he => ?_, fun _ _ => ?_⟩)
  · rintro event rfl
    rcases scanning_scan _ he with hused | ⟨value, hupdate⟩
    · cases hused
      rfl
    · cases hupdate
  · change ∀ e ∈ finish test ++ [], _
    rw [List.append_nil]
    cases test <;> simp [finish, closed, used, FileHandle.Event.file?]

theorem read_handles (h : (scan conv test fuel (contents test)).outcome = some (.ok ())) :
    handles (readOpened conv contents test fuel).events =
      .opened test::(handles (scan conv test fuel (contents test)).events ++
        handles (finish test)) := by
  have hread : readFile conv contents test fuel =
      ⟨(scan conv test fuel (contents test)).events ++ (finish test ++ []),
        some (.ok .success)⟩ := Traced.bind_ok h
  change .opened test::handles (readFile conv contents test fuel).events = _
  rw [hread, handles_append, List.append_nil]

theorem read_disciplined (h : (scan conv test fuel (contents test)).outcome = some (.ok ())) :
    FileHandle.Disciplined (handles (readOpened conv contents test fuel).events) ↔
      FileHandle.run true (handles (finish test)) = some false := by
  rw [read_handles h]
  change FileHandle.run true _ = _ ↔ _
  rw [FileHandle.run_append, FileHandle.run_used (scanning_handles scanning_scan)]
  rfl

/-- Behind the scanner a file is left in order where `closeFile` says so. -/
theorem finish_close_file :
    FileHandle.run true (handles (finish test)) = some false ↔ closeFile test = .ok () := by
  cases test <;> decide

/-- What is behind the scanner decides. -/
theorem read_orderly (h : FileHandle.run true (handles (finish test)) = some false) :
    Orderly test (readOpened conv contents test fuel) := by
  have hok : (readOpened conv contents test fuel).outcome = some (.ok .success) →
      (scan conv test fuel (contents test)).outcome = some (.ok ()) := fun hread => by
    obtain ⟨⟨⟩, hscan, -⟩ := Traced.outcome_bind_ok.mp
      (show (readFile conv contents test fuel).outcome = _ from hread)
    exact hscan
  refine ⟨?_, fun hread => (read_disciplined (hok hread)).mpr h⟩
  change ∀ e ∈ .opened test::handles (readFile conv contents test fuel).events, _
  refine List.forall_mem_cons.mpr ⟨fun file hfile => (Option.mem_some.mp hfile).symm, ?_⟩
  intro e he file hfile
  rw [read_files e he] at hfile
  cases hfile

theorem read_careless (hscan : (scan conv test fuel (contents test)).outcome = some (.ok ()))
    (hfinish : FileHandle.run true (handles (finish test)) ≠ some false) :
    ¬ Orderly test (readOpened conv contents test fuel) := by
  intro h
  refine hfinish ((read_disciplined hscan).mp (h.2 ?_))
  exact Traced.outcome_bind_ok.mpr ⟨(), rfl, Traced.outcome_bind_ok.mpr ⟨(), hscan, rfl⟩⟩

end Orderly

section Opening

variable {conv : Conversions} {contents : Test → List Text} {opens : ℕ → Open} {test : Test}
variable {fuel k : ℕ}

theorem attempt_orderly {again : Action Status}
    (hread : opens k = .success → Orderly test (readOpened conv contents test fuel))
    (hagain : opens k = .interrupted → Orderly test again) :
    Orderly test (attempt conv contents opens test fuel k again) := by
  rw [attempt]
  split
  · next h => exact hread h
  · exact orderly_refused.mpr ⟨List.forall_mem_nil _, (fun h => by cases h)⟩
  · next h => exact orderly_refused.mpr (hagain h)

/-- The induction is on the fuel; the calls that are left begin at `k`. -/
theorem open_orderly (h : ∀ n, opens (k+n) = .success → (∀ i < n, opens (k+i) = .interrupted) →
    ∀ fuel, Orderly test (readOpened conv contents test fuel)) :
    Orderly test (openFile conv contents opens test fuel k) := by
  induction fuel generalizing k with
  | zero => exact orderly_running
  | succ fuel ih =>
    refine attempt_orderly (fun hopen => ?_) fun hinterrupted => ih fun n hopen hbefore => ?_
    · exact h 0 hopen (fun i hi => absurd hi (Nat.not_lt_zero i)) fuel
    · refine h (n+1) (by rw [← hopen]; congr 1; omega) fun i hi => ?_
      cases i with
      | zero => exact hinterrupted
      | succ i =>
        rw [← hbefore i (by omega)]
        congr 1
        omega

theorem open_orderly_reads {n : ℕ} (hopen : opens (k+n) = .success)
    (hbefore : ∀ i < n, opens (k+i) = .interrupted)
    (h : Orderly test (openFile conv contents opens test (fuel+n+1) k)) :
    Orderly test (readOpened conv contents test fuel) := by
  induction n generalizing k with
  | zero =>
    rw [openFile, attempt, show opens k = .success from hopen] at h
    exact h
  | succ n ih =>
    have hk : opens k = .interrupted := hbefore 0 (Nat.succ_pos n)
    rw [openFile, attempt, hk] at h
    refine ih ?_ (fun i hi => ?_) (orderly_refused.mp h)
    · rw [← hopen]
      congr 1
      omega
    · rw [← hbefore (i+1) (by omega)]
      congr 1
      omega

/-- Whether SKaMPI's file is opened at last or not, what is closed is not open. -/
theorem skampi_careless
    (hscan : (scan conv .skampi fuel (contents .skampi)).outcome = some (.ok ())) (counter : ℕ) :
    ¬ Orderly .skampi (openSkampi conv contents opens fuel counter k) := by
  induction counter generalizing k with
  | zero =>
    intro h
    have hclosed : FileHandle.Disciplined ([.closed] : List (FileHandle.Event Test)) := h.2 rfl
    exact absurd hclosed (by decide)
  | succ counter ih =>
    rw [openSkampi]
    split
    · exact read_careless hscan (by decide)
    · exact fun h => ih (orderly_refused.mp h)

/-- The retry of MPI-Tile-IO opens the file of another benchmark. -/
theorem tile_careless (h : opens 0 = .interrupted) :
    ¬ Handled conv contents opens .mpiTileIo := by
  intro hall
  have horderly : Orderly .mpiTileIo (openFile conv contents opens .noncontig 1 1) := by
    have hone := hall 1
    rw [UpdateRequest.updateAdclRequest, attempt, h] at hone
    exact orderly_refused.mp hone
  have hfile : ∃ e ∈ handles (openFile conv contents opens .noncontig 1 1).events,
      e.file? = some .noncontig := by
    rw [openFile, attempt]
    split
    · exact ⟨_, List.mem_cons_self, rfl⟩
    · exact ⟨_, List.mem_cons_self, rfl⟩
    · exact ⟨_, List.mem_cons_self, rfl⟩
  obtain ⟨e, he, hnoncontig⟩ := hfile
  cases horderly.1 e he .noncontig hnoncontig

/-- For a file whose scan comes to its end. -/
theorem handled_iff (hfinishes : Finishes conv contents test) :
    Handled conv contents opens test ↔ Sound opens test := by
  obtain ⟨scanned, hscan⟩ := hfinishes
  cases test with
  | netpipe | latencyIo | noncontig =>
    exact ⟨fun _ => trivial, fun _ fuel => open_orderly fun _ _ _ _ => read_orderly rfl⟩
  | mpiTileIo =>
    refine ⟨fun h h0 => tile_careless h0 h, fun h fuel => ?_⟩
    exact attempt_orderly (fun _ => read_orderly rfl) fun h0 => absurd h0 h
  | skampi =>
    exact ⟨fun h => skampi_careless hscan 20 (h scanned), fun h => h.elim⟩
  | npb =>
    constructor
    · rintro h ⟨n, hopen, hbefore⟩
      refine read_careless hscan (by decide) (open_orderly_reads (k := 0) (n := n) ?_ ?_ (h _))
      · rwa [Nat.zero_add]
      · simpa only [Nat.zero_add] using hbefore
    · refine fun h fuel => open_orderly fun n hopen hbefore => absurd ⟨n, ?_, ?_⟩ h
      · rwa [Nat.zero_add] at hopen
      · simpa only [Nat.zero_add] using hbefore

/-- A NetPIPE file of one line is read behind an interrupted call. -/
theorem handled_netpipe :
    Finishes ⟨fun _ => 0, fun _ => none⟩ (fun _ => ["1 1 1\n".toList]) .netpipe ∧
      (Handled ⟨fun _ => 0, fun _ => none⟩ (fun _ => ["1 1 1\n".toList])
        (fun n => if n = 0 then .interrupted else .success) .netpipe ↔
          Sound (fun n => if n = 0 then .interrupted else .success) .netpipe) :=
  ⟨⟨0, rfl⟩, handled_iff ⟨0, rfl⟩⟩

/-- The file of NPB is closed twice. -/
theorem npb_closed_twice :
    Finishes ⟨fun _ => 0, fun _ => none⟩ (fun _ => ["seconds = 3\n".toList]) .npb ∧
      ¬ Handled ⟨fun _ => 0, fun _ => none⟩ (fun _ => ["seconds = 3\n".toList])
        (fun _ => .success) .npb := by
  refine ⟨⟨0, rfl⟩, fun h => ?_⟩
  exact absurd ((h 1).2 rfl) (by decide)

end Opening

end Otpo.OutputFile
