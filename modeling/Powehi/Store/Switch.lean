import Powehi.Store.Commit
import Powehi.Store.Journal

/-!
# Switching to a staged store

Specifications of the parts of `recover` for arbitrary directory contents: what has been
checked before the first file moves (`Checked`), which directories the moves, the deletes and
the removal of the staging directory pass through, and what they leave behind.

During a switch a file of the new store counts where it is found first: in the staging
directory, else in the profile directory (`Disk.current`).
-/

namespace Powehi.Store

open Codec Semantics Program List Disk Call

variable {cr : Crypto} {A : Choice → Prop} {K : Disk → Prop} {C : World → Prop} {s : World}
  {f : FileName}
variable {d : Dir} {Q : Post Unit} {priv : Bool}

/-- `Path::exists` never runs into an error. -/
def Sighted (A : Choice → Prop) : Prop := ∀ c, A c → c.blind = false

/-- What the staging directory holds under a name. -/
def Disk.staged (k : Disk) (f : FileName) : Option Entry := (k.dir? .staging).bind (·.get f)

/-- The entry that counts during a switch: the staged one, unless there is none or it is a
dangling link, which `Path::exists` does not see. -/
def Disk.current (k : Disk) (f : FileName) : Option Entry :=
  match k.staged f with
  | none | some (.symlink true) => k.home.get f
  | some e => some e

/-- A staged entry that `Path::exists` finds is the one that counts. -/
theorem World.current_of_exists (h : s.exists .staging f = true) :
    s.disk.current f = s.disk.staged f := by
  unfold Disk.current
  change (match s.disk.staged f with
    | none | some (.symlink true) => false
    | some _ => true) = true at h
  match s.disk.staged f, h with
  | some (.file _ _), _ | some (.symlink false), _ | some .dir, _ | some .special, _ => rfl

/-- Otherwise the entry of the profile directory counts. -/
theorem World.current_of_not_exists (h : ¬s.exists .staging f = true) :
    s.disk.current f = s.disk.home.get f := by
  unfold Disk.current
  change ¬(match s.disk.staged f with
    | none | some (.symlink true) => false
    | some _ => true) = true at h
  match s.disk.staged f, h with
  | none, _ | some (.symlink true), _ => rfl
  | some (.file _ _), h | some (.symlink false), h | some .dir, h | some .special, h =>
    exact absurd rfl h

/-! ### Reading -/

/-- Reading a private file of any directory. -/
theorem wp_readPrivateFile_any {l : Loc} {max : ℕ} {tooBig : StoreError} {Q : Post Bytes}
    (hd : s.disk.dir? l = some d) (hbig : tooBig ≠ .io .notFound) (hs : C s)
    (hQ : ∀ b, d.get f = some (privateFile b) → b.length ≤ max → Q (.ok b) s)
    (absent : d.get f = none → Q (.error (.io .notFound)) s) (failed : ∀ e, e ≠ .io .notFound →
      (FaultFree A → ∀ b, d.get f = some (privateFile b) → ¬b.length ≤ max) → Q (.error e) s) :
    wp (machine cr) A (readPrivateFile l f max tooBig) Q C s := by
  have hfault : ¬FaultFree A → Q (.error (.io .other)) s := fun hA =>
    failed _ (by simp) fun h => absurd h hA
  rw [readPrivateFile, wp_bind]
  cases hget : d.get f with
  | none => exact wp_read_absent hd hget hs (absent hget) hfault
  | some entry =>
    refine wp_read hd hget hs ?_ hfault
    rw [andThen_ok]
    split
    · rename_i b
      split
      · rename_i hlong
        refine ⟨hs, failed _ hbig fun _ b' hb' => ?_⟩
        rw [hget] at hb'
        cases hb'
        exact Nat.not_le.mpr hlong
      · rename_i hshort
        exact ⟨hs, hQ b hget (Nat.not_lt.mp hshort)⟩
    · rename_i hne
      refine ⟨hs, failed _ (by simp) fun _ b hb => ?_⟩
      rw [hget] at hb
      cases hb
      exact absurd rfl (hne b)

/-- Locating a file and reading it reads the entry that counts. -/
theorem wp_readCurrent {max : ℕ} {tooBig : StoreError} {Q : Post Bytes}
    (hA : Sighted A) (hbig : tooBig ≠ .io .notFound) (hs : C s)
    (hQ : ∀ b, s.disk.current f = some (privateFile b) → b.length ≤ max → Q (.ok b) s)
    (failed : ∀ e, (FaultFree A → ∀ b, s.disk.current f = some (privateFile b) →
      ¬b.length ≤ max) → Q (.error e) s) :
    wp (machine cr) A (locate f >>= fun l => readPrivateFile l f max tooBig) Q C s := by
  -- a directory in which the entry that counts is found
  have hread : ∀ l d, s.disk.dir? l = some d → s.disk.current f = d.get f →
      wp (machine cr) A (readPrivateFile l f max tooBig) Q C s := by
    intro l d hd hcur
    rw [hcur] at hQ failed
    refine wp_readPrivateFile_any hd hbig hs hQ (fun habs => failed _ fun _ b hb => ?_)
      fun e _ hreason => failed e hreason
    rw [habs] at hb
    cases hb
  rw [wp_bind, locate, wp_bind]
  refine wp_pathExists hs fun c hc => ?_
  rw [hA c hc, Bool.not_false, Bool.true_and]
  refine ⟨hs, ?_⟩
  by_cases hex : s.exists .staging f = true
  · rw [if_pos hex]
    cases hd : s.disk.dir? .staging with
    | none => rw [World.exists, hd] at hex; cases hex
    | some d =>
      refine hread .staging d hd ?_
      rw [World.current_of_exists hex, staged, hd, Option.bind_some]
  · rw [if_neg hex]
    exact hread .home s.disk.home (dir?_home _) (World.current_of_not_exists hex)

/-! ### What is checked -/

/-- The file that counts under `f` hashes to `want`. -/
def Disk.Carries (cr : Crypto) (k : Disk) (f : FileName) (want : Bytes) : Prop :=
  ∃ b, k.current f = some (privateFile b) ∧ b.length ≤ maxBlobLen ∧ toHex (cr.sha256 b).1 = want

/-- Everything that is verified before a file moves: the key file that counts opens to `bundle`,
the journal authenticates under it, and every file it lists is what was sealed. -/
structure Checked (cr : Crypto) (profile : Bytes) (unlock : KeyFile → Except StoreError Bundle)
    (sealed : Bytes) (k : Disk) (bundle : Bundle) (j : Journal) : Prop where
  staging : ∃ d, k.staging = .dir true d
  keyfile : ∃ b kf, k.current .keyfile = some (privateFile b) ∧ b.length ≤ keyfileMaxLen ∧
    KeyFile.decode b = .ok kf ∧ unlock kf = .ok bundle
  journal : openJournal cr bundle profile sealed = .ok j
  records : ∀ tag want, j.new[tag]? = some want → k.Carries cr (.record tag) want
  manifest : k.Carries cr .manifest j.manifest

theorem verifyFile_eq (cr : Crypto) (f : FileName) (want : Bytes) :
    verifyFile cr f want =
      (locate f >>= fun l => readPrivateFile l f maxBlobLen .rekeyJournalCorrupt) >>= fun b =>
        require (toHex (cr.sha256 b).1 == want) .rekeyJournalCorrupt := by
  simp only [verifyFile, fileHashHex, bind_assoc, pure_bind]

theorem wp_verifyFile {want : Bytes} (hA : Sighted A) (hs : C s)
    (hQ : s.disk.Carries cr f want → Q (.ok ()) s)
    (failed : ∀ e, (FaultFree A → ¬s.disk.Carries cr f want) → Q (.error e) s) :
    wp (machine cr) A (verifyFile cr f want) Q C s := by
  rw [verifyFile_eq, wp_bind]
  refine wp_readCurrent hA nofun hs (fun b hb hlen => ?_) fun e hno => failed e fun hA' hc => ?_
  · refine wp_require hs (fun heq => hQ ⟨b, hb, hlen, by simpa using heq⟩)
      fun hne => failed _ fun _ hc => ?_
    obtain ⟨b', hb', -, hhash⟩ := hc
    rw [hb] at hb'
    cases hb'
    simp [hhash] at hne
  · obtain ⟨b, hb, hlen, -⟩ := hc
    exact hno hA' b hb hlen

section Check

variable {profile : Bytes} {unlock : KeyFile → Except StoreError Bundle} {sealed : Bytes}

/-- Only the entries that count decide what `checkSwitch` finds. -/
theorem Checked.bundle_eq {k : Disk} {bundle bundle' : Bundle} {j j' : Journal}
    (h : Checked cr profile unlock sealed k bundle j)
    (h' : Checked cr profile unlock sealed k bundle' j') : bundle = bundle' ∧ j = j' := by
  obtain ⟨b, kf, hb, -, hdec, hunlock⟩ := h.keyfile
  obtain ⟨b', kf', hb', -, hdec', hunlock'⟩ := h'.keyfile
  rw [hb] at hb'
  cases hb'
  rw [hdec] at hdec'
  cases hdec'
  rw [hunlock] at hunlock'
  cases hunlock'
  have hj := h.journal
  rw [h'.journal] at hj
  cases hj
  exact ⟨rfl, rfl⟩

/-- The check changes nothing; it succeeds exactly with what it has verified. -/
theorem wp_checkSwitch {Q : Post Journal} (hA : Sighted A) (hs : C s)
    (hQ : ∀ bundle j, Checked cr profile unlock sealed s.disk bundle j → Q (.ok j) s)
    (failed : ∀ e, (FaultFree A → ∀ bundle j, ¬Checked cr profile unlock sealed s.disk bundle j) →
      Q (.error e) s) : wp (machine cr) A (checkSwitch cr profile unlock sealed) Q C s := by
  have hfault : ¬FaultFree A → ∀ e, Q (.error e) s := fun hA' e => failed e fun h => absurd h hA'
  rw [checkSwitch, wp_bind]
  by_cases hpriv : ∃ d, s.disk.staging = .dir true d
  swap
  · -- the staging directory is missing or not private
    have heff : ∃ e, ∀ c, effect cr (.checkPrivateDir .staging) c s = (.error e, s) := by
      cases hstg : s.disk.staging with
      | absent => exact ⟨.io .notFound, fun c => by simp only [effect, hstg]⟩
      | notDir => exact ⟨.insecurePath, fun c => by simp only [effect, hstg]⟩
      | dir priv d =>
        cases priv with
        | false => exact ⟨.insecurePath, fun c => by simp only [effect, hstg]⟩
        | true => exact absurd ⟨d, hstg⟩ hpriv
    obtain ⟨e, heff⟩ := heff
    have hno : ∀ bundle j, ¬Checked cr profile unlock sealed s.disk bundle j :=
      fun _ _ h => hpriv h.staging
    exact wp_call_look heff hs (failed e fun _ => hno) fun hA' => hfault hA' _
  obtain ⟨d, hstg⟩ := hpriv
  have hcheck : ∀ c, effect cr (.checkPrivateDir .staging) c s = (.ok (), s) := fun c => by
    simp only [effect, hstg]
  refine wp_call_look hcheck hs ?_ fun hA' => hfault hA' _
  rw [andThen_ok, ← bind_assoc, wp_bind]
  refine wp_readCurrent hA (by simp) hs (fun b hb hlen => ?_) fun e hno =>
    failed e fun hA' bundle j h => ?_
  swap
  · obtain ⟨b, kf, hb, hlen, -⟩ := h.keyfile
    exact hno hA' b hb hlen
  -- what the key file that was read must be, if the check can succeed at all
  have hsame : ∀ {bundle j}, Checked cr profile unlock sealed s.disk bundle j →
      (KeyFile.decode b).bind unlock = .ok bundle := by
    intro bundle j h
    obtain ⟨b', kf, hb', -, hdec, hunlock⟩ := h.keyfile
    rw [hb] at hb'
    cases hb'
    rw [hdec]
    exact hunlock
  rw [andThen_bind, wp_ofExcept]
  refine ⟨hs, ?_⟩
  cases hdec : KeyFile.decode b with
  | error e =>
    rw [hdec] at hsame
    exact failed e fun _ bundle j h => by cases hsame h
  | ok kf =>
    rw [hdec, Except.bind] at hsame
    rw [andThen_bind, wp_ofExcept]
    refine ⟨hs, ?_⟩
    cases hunlock : unlock kf with
    | error e =>
      rw [hunlock] at hsame
      exact failed e fun _ bundle j h => by cases hsame h
    | ok bundle =>
      rw [andThen_bind, wp_ofExcept]
      refine ⟨hs, ?_⟩
      have hbundle : ∀ {bundle' j}, Checked cr profile unlock sealed s.disk bundle' j →
          bundle' = bundle := fun h => Except.ok.inj ((hsame h).symm.trans hunlock)
      cases hj : openJournal cr bundle profile sealed with
      | error e =>
        refine failed e fun _ bundle' j h => ?_
        have := h.journal
        rw [hbundle h, hj] at this
        cases this
      | ok j =>
        have hjournal : ∀ {bundle' j'}, Checked cr profile unlock sealed s.disk bundle' j' →
            j' = j := by
          intro bundle' j' h
          have := h.journal
          rw [hbundle h, hj] at this
          cases this
          rfl
        rw [andThen_bind]
        -- every listed record, the ones before `rest` verified already
        refine wp_forM (fun rest t => t = s ∧ ∃ seen, j.new.toList = seen ++ rest ∧
          ∀ e ∈ seen, s.disk.Carries cr (.record e.1) e.2) ?_ ?_ ⟨rfl, [], rfl, by simp⟩
        · rintro e rest _ ⟨rfl, seen, hsplit, hseen⟩
          refine wp_verifyFile hA hs (fun hc => ⟨rfl, seen ++ [e], by simpa using hsplit, ?_⟩)
            fun err hno => failed err fun hA' bundle' j' h => ?_
          · intro e' he'
            rcases mem_append.mp he' with he' | he'
            · exact hseen e' he'
            · rw [mem_singleton.mp he']
              exact hc
          · have hmem : (e.1, e.2) ∈ j.new.toList := by simp [hsplit]
            rw [Std.ExtTreeMap.mem_toList_iff_getElem?_eq_some, ← hjournal h] at hmem
            exact hno hA' (h.records e.1 e.2 hmem)
        · rintro _ ⟨rfl, seen, hsplit, hseen⟩
          rw [append_nil] at hsplit
          refine ⟨hs, ?_⟩
          rw [andThen_bind]
          refine wp_verifyFile hA hs (fun hc => ⟨hs, hQ bundle j ?_⟩)
            fun err hno => failed err fun hA' bundle' j' h => ?_
          · refine ⟨⟨d, hstg⟩, ⟨b, kf, hb, hlen, hdec, hunlock⟩, hj, fun tag want htag => ?_, hc⟩
            rw [← Std.ExtTreeMap.mem_toList_iff_getElem?_eq_some, hsplit] at htag
            exact hseen _ htag
          · have := h.manifest
            rw [hjournal h] at this
            exact hno hA' this

end Check

/-! ### Moving the staged files -/

/-- Some of the files `fs` have moved from the staging directory of `k₀` into the profile
directory; nothing else has changed. -/
structure Moving (fs : List FileName) (k₀ k : Disk) : Prop where
  isDir : ∀ priv d₀, k₀.staging = .dir priv d₀ → ∃ d, k.staging = .dir priv d
  file : ∀ f, k.staged f = k₀.staged f ∧ k.home.get f = k₀.home.get f ∨
    f ∈ fs ∧ k.staged f = none ∧
      ∃ b priv, k₀.staged f = some (.file b priv) ∧ k.home.get f = some (.file b priv)

/-- All of the files `fs` have moved. -/
structure Moved (fs : List FileName) (k₀ k : Disk) : Prop extends Moving fs k₀ k where
  all : ∀ f ∈ fs, k.staged f = none

section Moves

variable {fs : List FileName} {k₀ k k' : Disk}

theorem Moving.refl (fs : List FileName) (k : Disk) : Moving fs k k :=
  ⟨fun _ d h => ⟨d, h⟩, fun _ => .inl ⟨rfl, rfl⟩⟩

theorem Moving.mono {gs : List FileName} (h : Moving fs k₀ k) (hsub : ∀ f ∈ fs, f ∈ gs) :
    Moving gs k₀ k := by
  refine ⟨h.isDir, fun f => ?_⟩
  rcases h.file f with hsame | ⟨hf, hmoved⟩
  · exact .inl hsame
  · exact .inr ⟨hsub f hf, hmoved⟩

theorem Moving.trans (h : Moving fs k₀ k) (h' : Moving fs k k') : Moving fs k₀ k' := by
  refine ⟨fun priv d₀ hd₀ => ?_, fun f => ?_⟩
  · obtain ⟨d, hd⟩ := h.isDir priv d₀ hd₀
    exact h'.isDir priv d hd
  · rcases h'.file f with ⟨hs', hh'⟩ | ⟨hf, hnone, b, priv, hfrom, hto⟩
    · rw [hs', hh']
      exact h.file f
    · rcases h.file f with ⟨hs, -⟩ | ⟨-, hgone, -⟩
      · exact .inr ⟨hf, hnone, b, priv, hs ▸ hfrom, hto⟩
      · rw [hgone] at hfrom
        cases hfrom

/-- What is no longer staged stays so. -/
theorem Moving.staged_none (h : Moving fs k₀ k) (hf : k₀.staged f = none) : k.staged f = none := by
  rcases h.file f with ⟨hs, -⟩ | ⟨-, hnone, -⟩
  · rw [hs, hf]
  · exact hnone

/-- After the moves, the profile directory holds what counted before them. -/
theorem Moved.current (h : Moved fs k₀ k) (hf : f ∈ fs) : k.home.get f = k₀.current f := by
  rcases h.file f with ⟨hs, hh⟩ | ⟨-, -, b, priv, hfrom, hto⟩
  · rw [Disk.current, ← hs, h.all f hf, hh]
  · rw [Disk.current, hfrom, hto]

/-- A file outside the moves is untouched. -/
theorem Moving.other (h : Moving fs k₀ k) (hf : f ∉ fs) : k.home.get f = k₀.home.get f := by
  rcases h.file f with ⟨-, hh⟩ | ⟨hmem, -⟩
  · exact hh
  · exact absurd hmem hf

/-- Nothing stands in the way of moving `f`. -/
structure Movable (k : Disk) (f : FileName) : Prop where
  regular : ∀ x, k.staged f = some x → ∃ b priv, x = .file b priv
  free : k.home.get f ≠ some .dir

theorem Moving.movable (h : Moving fs k₀ k) (hf : Movable k₀ f) : Movable k f := by
  rcases h.file f with ⟨hs, hh⟩ | ⟨-, hnone, b, priv, -, hto⟩
  · refine ⟨fun x hx => hf.regular x (hs ▸ hx), ?_⟩
    rw [hh]
    exact hf.free
  · refine ⟨fun x hx => ?_, ?_⟩
    · rw [hnone] at hx
      cases hx
    · rw [hto]
      exact nofun

/-- The disk after one staged entry moved. -/
theorem moving_moveIn {b : Bytes} {p : Bool} (hstg : s.disk.staging = .dir priv d)
    (hget : d.get f = some (.file b p)) :
    let t := (s.setDir .staging (d.set f none)).setDir .home
      (s.disk.home.set f (some (.file b p)))
    Moving [f] s.disk t.disk ∧ t.disk.staged f = none := by
  intro t
  have hstaged : ∀ g, s.disk.staged g = d.get g := fun g => by
    simp [staged, dir?, hstg]
  have hstaged' : ∀ g, t.disk.staged g = (d.set f none).get g := fun g => by
    simp [t, staged, dir?, World.setDir, setDir, hstg]
  refine ⟨⟨fun priv' d₀ hd₀ => ?_, fun g => ?_⟩, ?_⟩
  · rw [hstg] at hd₀
    cases hd₀
    exact ⟨d.set f none, by simp [t, World.setDir, setDir, hstg]⟩
  · rw [hstaged, hstaged']
    by_cases hg : g = f
    · subst hg
      exact .inr ⟨mem_singleton_self _, by simp, b, p, hget, by simp [t]⟩
    · exact .inl ⟨Dir.get_set_of_ne _ _ hg, Dir.get_set_of_ne _ _ hg⟩
  · rw [hstaged', Dir.get_set_self]

theorem wp_moveFile (hstg : s.disk.staging = .dir priv d) (hK : ∀ k, Moving [f] s.disk k → K k)
    (ok : ∀ t, Moved [f] s.disk t.disk → Q (.ok ()) t)
    (failed : ∀ e t, Moving [f] s.disk t.disk → (FaultFree A → ¬Movable s.disk f) →
      Q (.error e) t) : wp (machine cr) A (moveFile f) Q (fun t => K t.disk) s := by
  have hKs : K s.disk := hK _ (.refl _ _)
  have hd : s.disk.dir? .staging = some d := by simp [dir?, hstg]
  have hstaged : s.disk.staged f = d.get f := by simp [staged, hd]
  have hfault : ∀ e t, Moving [f] s.disk t.disk → ¬FaultFree A → Q (.error e) t :=
    fun e t ht hA => failed e t ht fun h => absurd h hA
  rw [moveFile, wp_bind]
  refine wp_ifPresent ?_
  cases hget : d.get f with
  | none =>
    refine wp_read_absent hd hget hKs ⟨hKs, hKs, ok s ⟨.refl _ _, fun g hg => ?_⟩⟩
      fun hA => ⟨hKs, hfault _ _ (.refl _ _) hA⟩
    rw [mem_singleton.mp hg, hstaged, hget]
  | some entry =>
    refine wp_read hd hget hKs ⟨hKs, ?_⟩ fun hA => ⟨hKs, hfault _ _ (.refl _ _) hA⟩
    rw [absentAsNone, andThen_ok]
    split
    · rename_i h
      cases h
    · rename_i b p h
      cases h
      by_cases hdir : s.disk.home.get f = some .dir
      · -- a rename does not replace a directory
        have heff : ∀ c, effect cr (.moveIn f) c s = (.error (.io .other), s) := fun c => by
          simp [effect, World.withDir, hd, hget, hdir]
        exact wp_call_look heff hKs (failed _ _ (.refl _ _) fun _ h => h.free hdir)
          fun hA => hfault _ _ (.refl _ _) hA
      · have heff : ∀ c, effect cr (.moveIn f) c s = (.ok (),
            (s.setDir .staging (d.set f none)).setDir .home
              (s.disk.home.set f (some (.file b p)))) := fun c => by
          simp [effect, World.withDir, hd, hget, hdir]
        obtain ⟨hmoving, hnone⟩ := moving_moveIn hstg hget
        refine wp_call_step heff hKs (hK _ hmoving) (ok _ ⟨hmoving, fun g hg => ?_⟩)
          (fun hA => hfault _ _ (.refl _ _) hA) fun hA => hfault _ _ hmoving hA
        rw [mem_singleton.mp hg]
        exact hnone
    · rename_i hne h
      cases h
      refine ⟨hKs, failed _ _ (.refl _ _) fun _ h => ?_⟩
      obtain ⟨b, p, rfl⟩ := h.regular entry (hstaged.trans hget)
      exact absurd rfl (hne b p)

/-- The files a journal moves, in the order they move. -/
def Journal.files (j : Journal) : List FileName :=
  j.new.keys.map .record ++ [.manifest, .keyfile]

theorem moveFiles_eq (j : Journal) : moveFiles j = j.files.forM moveFile := by
  have happend : ∀ (l l' : List FileName),
      (l ++ l').forM moveFile = l.forM moveFile >>= fun _ => l'.forM moveFile := by
    intro l l'
    induction l with
    | nil => rfl
    | cons f l ih =>
      change (moveFile f >>= fun _ => (l ++ l').forM moveFile) =
        (moveFile f >>= fun _ => l.forM moveFile) >>= fun _ => l'.forM moveFile
      rw [ih, bind_assoc]
  have hmap : ∀ l : List Bytes,
      (l.map FileName.record).forM moveFile = l.forM fun tag => moveFile (.record tag) := by
    intro l
    induction l with
    | nil => rfl
    | cons tag l ih =>
      change (moveFile (.record tag) >>= fun _ => (l.map FileName.record).forM moveFile) = _
      rw [ih]
      rfl
  have hlast : [FileName.manifest, .keyfile].forM moveFile =
      moveFile .manifest >>= fun _ => moveFile .keyfile :=
    congrArg (moveFile .manifest >>= ·) (funext fun _ => bind_pure' (moveFile .keyfile))
  rw [Journal.files, happend, hmap, hlast, moveFiles]

/-- Moving files one by one. -/
theorem wp_forM_moveFile (hstg : s.disk.staging = .dir priv d) (hK : ∀ k, Moving fs s.disk k → K k)
    (ok : ∀ t, Moved fs s.disk t.disk → Q (.ok ()) t)
    (failed : ∀ e t, Moving fs s.disk t.disk → (FaultFree A → ∃ f ∈ fs, ¬Movable s.disk f) →
      Q (.error e) t) : wp (machine cr) A (fs.forM moveFile) Q (fun t => K t.disk) s := by
  -- the files before `rest` have moved
  refine wp_forM (fun rest t => ∃ done, fs = done ++ rest ∧ Moving fs s.disk t.disk ∧
    ∀ f ∈ done, t.disk.staged f = none) ?_ ?_ ⟨[], rfl, .refl _ _, nofun⟩
  · rintro f rest t ⟨done, hfs, hmoving, hdone⟩
    have hmem : f ∈ fs := by simp [hfs]
    have hsub : ∀ g ∈ [f], g ∈ fs := fun g hg => mem_singleton.mp hg ▸ hmem
    obtain ⟨d', hd'⟩ := hmoving.isDir priv d hstg
    refine wp_moveFile hd' (fun k hk => hK k (hmoving.trans (hk.mono hsub))) (fun u hu => ?_)
      fun e u hu hreason => failed e u (hmoving.trans (hu.mono hsub)) fun hA =>
        ⟨f, hmem, fun hmov => hreason hA (hmoving.movable hmov)⟩
    refine ⟨done ++ [f], by simpa using hfs, hmoving.trans (hu.toMoving.mono hsub), fun g hg => ?_⟩
    rcases mem_append.mp hg with hg | hg
    · exact hu.toMoving.staged_none (hdone g hg)
    · exact hu.all g hg
  · rintro t ⟨done, hfs, hmoving, hdone⟩
    rw [append_nil] at hfs
    subst hfs
    exact ⟨hK _ hmoving, ok t ⟨hmoving, hdone⟩⟩

end Moves

/-! ### Deleting the old records -/

/-- Some of the records with the tags `old` are gone; nothing else has changed. -/
structure Dropping (old : Names) (k₀ k : Disk) : Prop where
  staging : k.staging = k₀.staging
  file : ∀ f, k.home.get f = k₀.home.get f ∨
    k.home.get f = none ∧ ∃ tag ∈ old, f = .record tag

/-- All of them are gone. -/
structure Dropped (old : Names) (k₀ k : Disk) : Prop extends Dropping old k₀ k where
  all : ∀ tag ∈ old, k.home.get (.record tag) = none

section Drops

variable {old : Names} {k₀ k k' : Disk}

theorem Dropping.refl (old : Names) (k : Disk) : Dropping old k k := ⟨rfl, fun _ => .inl rfl⟩

theorem Dropping.trans (h : Dropping old k₀ k) (h' : Dropping old k k') : Dropping old k₀ k' := by
  refine ⟨h'.staging.trans h.staging, fun f => ?_⟩
  rcases h'.file f with hsame | hgone
  · rw [hsame]
    exact h.file f
  · exact .inr hgone

theorem Dropping.other (h : Dropping old k₀ k) (hf : ∀ tag ∈ old, f ≠ .record tag) :
    k.home.get f = k₀.home.get f := by
  rcases h.file f with hsame | ⟨-, tag, htag, heq⟩
  · exact hsame
  · exact absurd heq (hf tag htag)

theorem Dropping.get_none (h : Dropping old k₀ k) (hf : k₀.home.get f = none) :
    k.home.get f = none := by
  rcases h.file f with hsame | ⟨hnone, -⟩
  · rw [hsame, hf]
  · exact hnone

/-- One old record goes, or was gone already. -/
theorem wp_dropRecord {tag : Bytes} (htag : tag ∈ old) (hK : ∀ k, Dropping old s.disk k → K k)
    (ok : ∀ t, Dropping old s.disk t.disk → t.disk.home.get (.record tag) = none → Q (.ok ()) t)
    (failed : ∀ e t, Dropping old s.disk t.disk →
      (FaultFree A → s.disk.home.get (.record tag) = some .dir) → Q (.error e) t) :
    wp (machine cr) A (do let _ ← ifPresent (call (.removeFile .home (.record tag)))) Q
      (fun t => K t.disk) s := by
  have hKs : K s.disk := hK _ (.refl _ _)
  have hfault : ∀ e t, Dropping old s.disk t.disk → ¬FaultFree A → Q (.error e) t :=
    fun e t ht hA => failed e t ht fun h => absurd h hA
  have hd : s.disk.dir? .home = some s.disk.home := dir?_home _
  rw [wp_bind]
  refine wp_ifPresent ?_
  cases hget : s.disk.home.get (.record tag) with
  | none =>
    have heff : ∀ c, effect cr (.removeFile .home (.record tag)) c s =
        (.error (.io .notFound), s) := fun c => by
      simp [effect, World.withDir, hget]
    exact wp_call_look heff hKs ⟨hKs, hKs, ok s (.refl _ _) hget⟩
      fun hA => ⟨hKs, hfault _ _ (.refl _ _) hA⟩
  | some e =>
    by_cases hdir : e = .dir
    · have heff : ∀ c, effect cr (.removeFile .home (.record tag)) c s =
          (.error (.io .other), s) := fun c => by
        simp [effect, World.withDir, hget, hdir]
      refine wp_call_look heff hKs ⟨hKs, failed _ _ (.refl _ _) fun _ => ?_⟩
        fun hA => ⟨hKs, hfault _ _ (.refl _ _) hA⟩
      rw [hget, hdir]
    · have hgone : (s.setDir .home (s.disk.home.set (.record tag) none)).disk.home.get
          (.record tag) = none := Dir.get_set_self s.disk.home (.record tag) none
      have hdrop : Dropping old s.disk
          (s.setDir .home (s.disk.home.set (.record tag) none)).disk := by
        refine ⟨rfl, fun f => ?_⟩
        by_cases hf : f = .record tag
        · subst hf
          exact .inr ⟨hgone, tag, htag, rfl⟩
        · exact .inl (Dir.get_set_of_ne _ _ hf)
      exact wp_removeFile hd hget hdir hKs (hK _ hdrop)
        ⟨hK _ hdrop, hK _ hdrop, ok _ hdrop hgone⟩
        (fun hA => ⟨hKs, hfault _ _ (.refl _ _) hA⟩) fun hA => ⟨hK _ hdrop, hfault _ _ hdrop hA⟩

theorem wp_dropOldRecords (hK : ∀ k, Dropping old s.disk k → K k)
    (ok : ∀ t, Dropped old s.disk t.disk → Q (.ok ()) t)
    (failed : ∀ e t, Dropping old s.disk t.disk →
      (FaultFree A → ∃ tag ∈ old, s.disk.home.get (.record tag) = some .dir) → Q (.error e) t) :
    wp (machine cr) A (dropOldRecords old) Q (fun t => K t.disk) s := by
  -- the tags before `rest` are gone
  refine wp_forM (fun rest t => ∃ done, old.toList = done ++ rest ∧ Dropping old s.disk t.disk ∧
    ∀ tag ∈ done, t.disk.home.get (.record tag) = none) ?_ ?_ ⟨[], rfl, .refl _ _, nofun⟩
  · rintro tag rest t ⟨done, hsplit, hdrop, hdone⟩
    have htag : tag ∈ old := by
      rw [← Std.ExtTreeSet.mem_toList, hsplit]
      simp
    refine wp_dropRecord htag (fun k hk => hK k (hdrop.trans hk)) (fun u hu hnone => ?_)
      fun e u hu hreason => failed e u (hdrop.trans hu) fun hA => ⟨tag, htag, ?_⟩
    · refine ⟨done ++ [tag], by simpa using hsplit, hdrop.trans hu, fun tag' htag' => ?_⟩
      rcases mem_append.mp htag' with hin | hin
      · exact hu.get_none (hdone tag' hin)
      · rw [mem_singleton.mp hin]
        exact hnone
    · have hdir := hreason hA
      rcases hdrop.file (.record tag) with hsame | ⟨hnone, -⟩
      · rw [← hsame, hdir]
      · rw [hnone] at hdir
        cases hdir
  · rintro t ⟨done, hsplit, hdrop, hdone⟩
    rw [append_nil] at hsplit
    refine ⟨hK _ hdrop, ok t ⟨hdrop, fun tag htag => hdone tag ?_⟩⟩
    rwa [← hsplit, Std.ExtTreeSet.mem_toList]

end Drops

/-! ### The whole switch -/

/-- Some files of a staging directory are gone, or the directory itself. -/
def Staging.Shrunk (stg stg' : Staging) : Prop :=
  stg' = .absent ∨ ∃ priv d keep, stg = .dir priv d ∧ stg' = .dir priv (d.filter keep)

/-- The disks a switch passes through once everything has been checked. -/
inductive SwitchStage (j : Journal) (k₀ : Disk) : Disk → Prop
  | moving {k : Disk} (h : Moving j.files k₀ k) : SwitchStage j k₀ k
  | dropping {k₁ k : Disk} (h₁ : Moved j.files k₀ k₁) (h : Dropping j.old k₁ k) :
      SwitchStage j k₀ k
  | clearing {k₁ k₂ : Disk} {stg : Staging} (h₁ : Moved j.files k₀ k₁)
      (h₂ : Dropped j.old k₁ k₂) (h : k₂.staging.Shrunk stg) :
      SwitchStage j k₀ { k₂ with staging := stg }

/-- The disk after a finished switch. -/
def Switched (j : Journal) (k₀ k : Disk) : Prop :=
  ∃ k₁ k₂, Moved j.files k₀ k₁ ∧ Dropped j.old k₁ k₂ ∧ k = { k₂ with staging := .absent }

/-- No directory or special file stands in the way of a switch. -/
structure Unobstructed (j : Journal) (k : Disk) : Prop where
  files : ∀ f ∈ j.files, Movable k f
  old : ∀ tag ∈ j.old, k.home.get (.record tag) ≠ some .dir

section Switch

variable {j : Journal} {k₀ k : Disk} {profile sealed : Bytes} {bundle : Bundle}
  {unlock : KeyFile → Except StoreError Bundle}

theorem Journal.record_mem_files {tag : Bytes} : .record tag ∈ j.files ↔ tag ∈ j.new := by
  simp [Journal.files]

theorem Switched.stage (h : Switched j k₀ k) : SwitchStage j k₀ k := by
  obtain ⟨k₁, k₂, h₁, h₂, rfl⟩ := h
  exact .clearing h₁ h₂ (.inl rfl)

/-- A switch leaves files alone that the journal does not list. -/
theorem SwitchStage.other (h : SwitchStage j k₀ k) (hf : f ∉ j.files)
    (hold : ∀ tag ∈ j.old, f ≠ .record tag) : k.home.get f = k₀.home.get f := by
  cases h with
  | moving h => exact h.other hf
  | dropping h₁ h => rw [h.other hold, h₁.toMoving.other hf]
  | clearing h₁ h₂ h => exact (h₂.toDropping.other hold).trans (h₁.toMoving.other hf)

theorem wp_removeStagingAll (hstg : s.disk.staging = .dir priv d) (hK : K s.disk)
    (hmid : ∀ stg, s.disk.staging.Shrunk stg → K { s.disk with staging := stg })
    (ok : ∀ t, t.disk = { s.disk with staging := .absent } → Q (.ok ()) t)
    (failed : ¬FaultFree A → ∀ e t stg, s.disk.staging.Shrunk stg ∨ stg = s.disk.staging →
      t.disk = { s.disk with staging := stg } → Q (.error e) t) :
    wp (machine cr) A removeStagingAll Q (fun t => K t.disk) s := by
  have hclear : ∀ c, effect cr .clearStaging c s =
      (.ok (), { s with disk := { s.disk with staging := .dir priv (d.filter c.keep) } }) := by
    simp [effect, World.withDir, dir?, World.setDir, setDir, hstg]
  have hshrunk : ∀ c : Choice, s.disk.staging.Shrunk (.dir priv (d.filter c.keep)) := fun c =>
    .inr ⟨priv, d, c.keep, hstg, rfl⟩
  rw [removeStagingAll, wp_bind]
  refine wp_call hK (fun c _ => ?_) (fun hA => failed hA _ _ _ (.inr rfl) rfl) fun hA c _ => ?_
  · rw [hclear c]
    have hrmdir : ∀ c', effect cr .removeStagingDir c'
        { s with disk := { s.disk with staging := .dir priv (d.filter c.keep) } } =
        (.ok (), { s with disk := { s.disk with staging := .absent } }) := by
      simp [effect, World.withDir, dir?]
    refine ⟨hmid _ (hshrunk c), ?_⟩
    rw [andThen_ok]
    exact wp_call_step hrmdir (hmid _ (hshrunk c)) (hmid _ (.inl rfl)) (ok _ rfl)
      (fun hA => failed hA _ _ _ (.inl (hshrunk c)) rfl) fun hA =>
        failed hA _ _ _ (.inl (.inl rfl)) rfl
  · rw [hclear c]
    exact failed hA _ _ _ (.inl (hshrunk c)) rfl

/-- Nothing changes before everything is checked; then the switch runs through its stages. -/
theorem wp_finishSwitch (hA : Sighted A) (hK : K s.disk)
    (hmid : ∀ bundle j k, Checked cr profile unlock sealed s.disk bundle j →
      SwitchStage j s.disk k → K k)
    (ok : ∀ bundle j t, Checked cr profile unlock sealed s.disk bundle j →
      Switched j s.disk t.disk → Q (.ok ()) t) (failed : ∀ e t, K t.disk →
      (FaultFree A → ∀ bundle j, Checked cr profile unlock sealed s.disk bundle j →
        ¬Unobstructed j s.disk) → Q (.error e) t) :
    wp (machine cr) A (finishSwitch cr profile unlock sealed) Q (fun t => K t.disk) s := by
  have hfault : ¬FaultFree A → ∀ e t, K t.disk → Q (.error e) t := fun hA' e t ht =>
    failed e t ht fun h => absurd h hA'
  rw [finishSwitch, wp_bind]
  refine wp_checkSwitch hA hK (fun bundle j hc => ?_) fun e hno =>
    failed e s hK fun hA' bundle j h _ => hno hA' bundle j h
  have hstage : ∀ {k}, SwitchStage j s.disk k → K k := fun h => hmid bundle j _ hc h
  have hreason : (FaultFree A → ¬Unobstructed j s.disk) → FaultFree A → ∀ bundle' j',
      Checked cr profile unlock sealed s.disk bundle' j' → ¬Unobstructed j' s.disk := by
    intro hno hA' bundle' j' h
    rw [← (hc.bundle_eq h).2]
    exact hno hA'
  obtain ⟨d, hstg⟩ := hc.staging
  rw [andThen_bind, moveFiles_eq]
  refine wp_forM_moveFile hstg (fun k hk => hstage (.moving hk)) (fun t₁ h₁ => ?_)
    fun e t ht hno => failed e t (hstage (.moving ht)) (hreason fun hA' h => ?_)
  swap
  · obtain ⟨f, hf, hmov⟩ := hno hA'
    exact hmov (h.files f hf)
  have hK₁ : K t₁.disk := hstage (.moving h₁.toMoving)
  rw [andThen_bind]
  refine wp_syncDir (dir?_home _) hK₁ ?_ fun hA' => hfault hA' _ _ hK₁
  rw [andThen_bind]
  refine wp_dropOldRecords (fun k hk => hstage (.dropping h₁ hk)) (fun t₂ h₂ => ?_)
    fun e t ht hno => failed e t (hstage (.dropping h₁ ht)) (hreason fun hA' h => ?_)
  swap
  · obtain ⟨tag, htag, hdir⟩ := hno hA'
    -- an old record is not among the files that moved
    have hother : .record tag ∉ j.files := fun hmem =>
      openJournal_disjoint hc.journal (Journal.record_mem_files.mp hmem) htag
    rw [h₁.toMoving.other hother] at hdir
    exact h.old tag htag hdir
  have hK₂ : K t₂.disk := hstage (.dropping h₁ h₂.toDropping)
  rw [andThen_bind]
  refine wp_syncDir (dir?_home _) hK₂ ?_ fun hA' => hfault hA' _ _ hK₂
  obtain ⟨d₁, hd₁⟩ := h₁.isDir true d hstg
  refine wp_removeStagingAll (h₂.staging.trans hd₁) hK₂
    (fun stg hshrunk => hstage (.clearing h₁ h₂ hshrunk))
    (fun t ht => ok bundle j t hc ⟨_, _, h₁, h₂, ht⟩) fun hA' e t stg hstg' ht => hfault hA' e t ?_
  rw [ht]
  rcases hstg' with hshrunk | rfl
  · exact hstage (.clearing h₁ h₂ hshrunk)
  · exact hK₂

/-- `recover` with a journal: the switch is finished if there is a staging directory, then the
journal goes. -/
theorem wp_recover_some (hA : Sighted A) (hj : s.disk.home.get .journal = some (privateFile sealed))
    (hlen : sealed.length ≤ journalMaxLen) (hK : K s.disk)
    (hmid : ∀ bundle j k, Checked cr profile unlock sealed s.disk bundle j →
      SwitchStage j s.disk k → K k) (hdone : ∀ k, (s.disk.staging = .absent ∧ k = s.disk ∨
      ∃ bundle j, Checked cr profile unlock sealed s.disk bundle j ∧ Switched j s.disk k) →
      K { k with home := k.home.set .journal none })
    (ok : ∀ k t, (s.disk.staging = .absent ∧ k = s.disk ∨
      ∃ bundle j, Checked cr profile unlock sealed s.disk bundle j ∧ Switched j s.disk k) →
      t.disk = { k with home := k.home.set .journal none } → Q (.ok ()) t)
    (failed : ∀ e t, K t.disk → (FaultFree A → s.disk.staging ≠ .absent ∧
      ∀ bundle j, Checked cr profile unlock sealed s.disk bundle j → ¬Unobstructed j s.disk) →
      Q (.error e) t) : wp (machine cr) A (recover cr profile unlock) Q (fun t => K t.disk) s := by
  have hfault : ¬FaultFree A → ∀ e t, K t.disk → Q (.error e) t := fun hA' e t ht =>
    failed e t ht fun h => absurd h hA'
  -- with the switch finished, only the journal is left to remove
  have hfinish : ∀ t : World, (s.disk.staging = .absent ∧ t.disk = s.disk ∨
      ∃ bundle j, Checked cr profile unlock sealed s.disk bundle j ∧ Switched j s.disk t.disk) →
      wp (machine cr) A (call (.syncDir .home) >>= fun _ =>
        call (.removeFile .home .journal) >>= fun _ => call (.syncDir .home)) Q
        (fun t => K t.disk) t := by
    intro t ht
    have hKt : K t.disk := by
      rcases ht with ⟨-, heq⟩ | ⟨bundle, j, hc, hsw⟩
      · rw [heq]
        exact hK
      · exact hmid bundle j _ hc hsw.stage
    have hjt : t.disk.home.get .journal = some (privateFile sealed) := by
      rcases ht with ⟨-, heq⟩ | ⟨bundle, j, hc, hsw⟩
      · rw [heq, hj]
      · rw [hsw.stage.other (by simp [Journal.files]) (by simp), hj]
    have hK' : K (t.setDir .home (t.disk.home.set .journal none)).disk := hdone t.disk ht
    rw [wp_bind]
    refine wp_syncDir (dir?_home _) hKt ?_ fun hA' => hfault hA' _ _ hKt
    rw [andThen_bind]
    refine wp_removeFile (dir?_home _) hjt (by simp [privateFile]) hKt hK' ?_
      (fun hA' => hfault hA' _ _ hKt)
      fun hA' => hfault hA' _ _ hK'
    rw [andThen_ok]
    exact wp_syncDir (dir?_home _) hK' (ok t.disk _ ht rfl) fun hA' => hfault hA' _ _ hK'
  rw [recover, wp_bind]
  refine wp_ifPresent (wp_readPrivateFile (dir?_home _) hj hlen hK ⟨hK, ?_⟩
    fun hA' => ⟨hK, hfault hA' _ _ hK⟩)
  rw [absentAsNone, andThen_ok]
  rw [wp_bind, stagingPresent, wp_bind]
  refine wp_statStaging hK (fun hstg => ⟨hK, ?_⟩) (fun hstg => ⟨hK, ?_⟩)
    (fun priv d hstg => ⟨hK, ?_⟩) fun hA' e => hfault hA' e _ hK
  · rw [andThen_bind]
    exact ⟨hK, hfinish s (.inl ⟨hstg, rfl⟩)⟩
  · refine failed _ _ hK fun _ => ⟨by simp [hstg], fun bundle j hc => ?_⟩
    obtain ⟨d, hd⟩ := hc.staging
    rw [hstg] at hd
    cases hd
  · rw [andThen_bind]
    refine wp_onlyIf (fun _ => ?_) (by simp)
    refine wp_finishSwitch hA hK hmid (fun bundle j t hc hsw => ?_)
      fun e t ht hno => failed e t ht fun hA' => ⟨by simp [hstg], hno hA'⟩
    exact hfinish t (.inr ⟨bundle, j, hc, hsw⟩)

end Switch

end Powehi.Store
