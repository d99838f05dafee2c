import Powehi.Store.Device

/-!
# Rules for the device operations

One weakest-precondition rule per device operation, so that proofs about store programs
never unfold the machine. A rule asks for the postcondition after success and, unless the
environment is fault free, also after a failure.
-/

namespace Powehi.Store

open Codec Semantics Program World Call

/-- A condition on how a program ends. -/
abbrev Post (α : Type) : Type := Except StoreError α → World → Prop

variable {cr : Crypto} {A : Choice → Prop} {β : Type}
variable {o : Call β}
variable {Q : Post β} {C : World → Prop} {s : World}

/-- No call fails. -/
def FaultFree (A : Choice → Prop) : Prop := ∀ c, A c → c.fault = none

/-- Where calls can fail, the program may fail in any way. -/
abbrev Faults (A : Choice → Prop) (Q : Post β) : Prop := ¬FaultFree A → ∀ e t, Q (.error e) t

theorem Faults.here {e : StoreError} {t : World} (h : Faults A Q) (hA : ¬FaultFree A) :
    Q (.error e) t := h hA e t

/-- The general rule of a call. -/
theorem wp_call (hC : C s)
    (ok : ∀ c, A c → C (o.effect cr c s).2 ∧ Q (o.effect cr c s).1 (o.effect cr c s).2)
    (failed : ¬FaultFree A → Q (.error o.error) s)
    (applied : ¬FaultFree A → ∀ c, A c → Q (.error o.error) (o.effect cr c s).2) :
    wp (machine cr) A (call o) Q C s := by
  rw [call, wp_request]
  refine ⟨hC, fun c hc => ?_⟩
  have faulty (b : Bool) (hb : c.fault = some b) : ¬FaultFree A := by
    intro hA
    rw [hA c hc] at hb
    cases hb
  simp only [machine, exec]
  match hf : c.fault with
  | none => exact ok c hc
  | some false => exact ⟨hC, failed (faulty _ hf)⟩
  | some true => exact ⟨(ok c hc).1, applied (faulty _ hf) c hc⟩

/-- A call whose effect does not depend on the environment. -/
theorem wp_call_step {r : Except StoreError β} {t : World} (heff : ∀ c, o.effect cr c s = (r, t))
    (hs : C s) (ht : C t) (hQ : Q r t) (failed : ¬FaultFree A → Q (.error o.error) s)
    (applied : ¬FaultFree A → Q (.error o.error) t) : wp (machine cr) A (call o) Q C s := by
  refine wp_call hs (fun c _ => ?_) failed (fun hA c _ => ?_)
  · rw [heff c]
    exact ⟨ht, hQ⟩
  · rw [heff c]
    exact applied hA

/-- A call that only looks. -/
theorem wp_call_look {r : Except StoreError β} (heff : ∀ c, o.effect cr c s = (r, s)) (hs : C s)
    (hQ : Q r s) (failed : ¬FaultFree A → Q (.error o.error) s) :
    wp (machine cr) A (call o) Q C s :=
  wp_call_step heff hs hs hQ failed failed

section Memory

variable {l : Loc}

theorem wp_getMem {Q : Post Mem} (hs : C s)
    (hQ : Q (.ok (s.mem l)) s) : wp (machine cr) A (getMem l) Q C s :=
  (wp_perform _).mpr ⟨hs, fun _ _ => ⟨hs, hQ⟩⟩

theorem wp_modifyMem {f : Mem → Mem} {Q : Post Unit} (hs : C s) (ht : C (s.setMem l (f (s.mem l))))
    (hQ : Q (.ok ()) (s.setMem l (f (s.mem l)))) : wp (machine cr) A (modifyMem l f) Q C s := by
  rw [modifyMem, wp_bind]
  refine wp_getMem hs ?_
  exact (wp_perform _).mpr ⟨hs, fun _ _ => ⟨ht, hQ⟩⟩

theorem wp_pathExists {f : FileName} {Q : Post Bool} (hs : C s)
    (hQ : ∀ c, A c → Q (.ok (!c.blind && s.exists l f)) s) :
    wp (machine cr) A (pathExists l f) Q C s :=
  (wp_perform _).mpr ⟨hs, fun c hc => ⟨hs, hQ c hc⟩⟩

end Memory

section Randomness

/-- What the world looks like after one more use of the AEAD. -/
def World.log (s : World) (x : Seal) : World := { s with seals := x :: s.seals }

@[simp] theorem World.log_disk (s : World) (x : Seal) : (s.log x).disk = s.disk := rfl

@[simp] theorem World.log_mem (s : World) (x : Seal) : (s.log x).mem = s.mem := rfl

theorem wp_fillNonce {Q : Post Nonce} (hs : C s)
    (hQ : ∀ n, Q (.ok n) s) (failed : ¬FaultFree A → Q (.error (.io .other)) s) :
    wp (machine cr) A (call .fillNonce) Q C s :=
  wp_call hs (fun c _ => ⟨hs, hQ c.nonce⟩) failed (fun hA _ _ => failed hA)

theorem wp_fillBundle {Q : Post Bundle} (hs : C s)
    (hQ : ∀ c, A c → Q (.ok c.bundle) s) (failed : ¬FaultFree A → Q (.error (.io .other)) s) :
    wp (machine cr) A (call .fillBundle) Q C s :=
  wp_call hs (fun c hc => ⟨hs, hQ c hc⟩) failed (fun hA _ _ => failed hA)

theorem wp_encrypt {err : StoreError} {k : Key} {n : Nonce} {a m : Bytes}
    {Q : Post Bytes} (hs : C s) (ht : C (s.log ⟨k, n, a, m⟩))
    (hQ : Q (.ok (cr.encrypt k n a m)) (s.log ⟨k, n, a, m⟩))
    (failed : ¬FaultFree A → Q (.error err) s)
    (applied : ¬FaultFree A → Q (.error err) (s.log ⟨k, n, a, m⟩)) :
    wp (machine cr) A (call (.encrypt err k n a m)) Q C s :=
  wp_call_step (fun _ => rfl) hs ht hQ failed applied

end Randomness

section Files

variable {l : Loc} {d : Dir} {f : FileName}

theorem wp_lock {Q : Post Unit} (hs : C s) (hQ : Q (.ok ()) s)
    (failed : ¬FaultFree A → Q (.error .locked) s) : wp (machine cr) A (call .lock) Q C s :=
  wp_call_look (fun _ => rfl) hs hQ failed

theorem wp_checkHome {Q : Post Unit} (hs : C s) (hQ : Q (.ok ()) s)
    (failed : ¬FaultFree A → Q (.error (.io .other)) s) :
    wp (machine cr) A (call (.checkPrivateDir .home)) Q C s :=
  wp_call_look (fun _ => rfl) hs hQ failed

theorem wp_readDir {Q : Post (List FileName)} (hd : s.disk.dir? l = some d) (hs : C s)
    (hQ : ∀ fs : List FileName, fs.Perm d.listing → Q (.ok fs) s)
    (failed : ¬FaultFree A → Q (.error (.io .other)) s) :
    wp (machine cr) A (call (.readDir l)) Q C s := by
  refine wp_call hs (fun c _ => ?_) failed (fun hA c _ => ?_)
  · simp only [effect, withDir, hd]
    exact ⟨hs, hQ _ (c.arrange_perm _)⟩
  · simp only [effect, withDir, hd]
    exact failed hA

theorem wp_read {Q : Post Entry} {e : Entry} (hd : s.disk.dir? l = some d) (he : d.get f = some e)
    (hs : C s) (hQ : Q (.ok e) s) (failed : ¬FaultFree A → Q (.error (.io .other)) s) :
    wp (machine cr) A (call (.read l f)) Q C s :=
  wp_call_look (fun c => by simp [effect, withDir, hd, he]) hs hQ failed

theorem wp_read_absent {Q : Post Entry}
    (hd : s.disk.dir? l = some d) (he : d.get f = none) (hs : C s)
    (hQ : Q (.error (.io .notFound)) s) (failed : ¬FaultFree A → Q (.error (.io .other)) s) :
    wp (machine cr) A (call (.read l f)) Q C s :=
  wp_call_look (fun c => by simp [effect, withDir, hd, he]) hs hQ failed

theorem wp_replace {b : Bytes} {Q : Post Unit}
    (hd : s.disk.dir? l = some d) (he : d.get f ≠ some .dir) (hs : C s)
    (ht : C (s.setDir l (d.set f (some (privateFile b)))))
    (hQ : Q (.ok ()) (s.setDir l (d.set f (some (privateFile b)))))
    (failed : ¬FaultFree A → Q (.error (.io .other)) s)
    (applied : ¬FaultFree A →
      Q (.error (.io .other)) (s.setDir l (d.set f (some (privateFile b))))) :
    wp (machine cr) A (call (.replace l f b)) Q C s :=
  wp_call_step (fun c => by simp [effect, withDir, hd, he]) hs ht hQ failed applied

theorem wp_removeFile {e : Entry} {Q : Post Unit}
    (hd : s.disk.dir? l = some d) (he : d.get f = some e) (hdir : e ≠ .dir) (hs : C s)
    (ht : C (s.setDir l (d.set f none))) (hQ : Q (.ok ()) (s.setDir l (d.set f none)))
    (failed : ¬FaultFree A → Q (.error (.io .other)) s)
    (applied : ¬FaultFree A → Q (.error (.io .other)) (s.setDir l (d.set f none))) :
    wp (machine cr) A (call (.removeFile l f)) Q C s := by
  refine wp_call_step (fun c => ?_) hs ht hQ failed applied
  cases e <;> simp_all [effect, withDir]

theorem wp_syncDir {Q : Post Unit} (hd : s.disk.dir? l = some d) (hs : C s) (hQ : Q (.ok ()) s)
    (failed : ¬FaultFree A → Q (.error (.io .other)) s) :
    wp (machine cr) A (call (.syncDir l)) Q C s :=
  wp_call_look (fun c => by simp [effect, withDir, hd]) hs hQ failed

end Files

end Powehi.Store
