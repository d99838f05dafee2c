import Powehi.Client.Rules
import Powehi.Client.Toy
import Powehi.Client.Welcome
import Powehi.Semantics.Fallible
import Powehi.Semantics.Trace

/-!
# Interrupted joins

A join writes four records in a fixed order: the conversation, the MLS state with the group and
without the consumed KeyPackage, the decapsulation keys without the consumed one, and the invite
marker. An attempt reads all it needs before it writes; what it reads determines what it writes. So
every state an attempt leaves behind is one of a fixed sequence, and an attempt from one of them
moves along the sequence.
-/

namespace Powehi.Client

open Codec Server Semantics Program List Profile World Conversation Option

variable {L : Libraries}
variable {Q : Except JoinOutcome Unit → World L → Prop} {G : L.Group} {kind : Kind}

/-! ### What an attempt reads -/

namespace Profile

def provider (R : Profile L) : Provider L := (R.records .mlsProvider).getD ∅

def pqKeys (R : Profile L) : List (KeyRef × Bytes) := (R.records .pqKeys).getD []

def pqKey (R : Profile L) (ref : KeyRef) : Option Bytes :=
  (R.pqKeys.find? (·.1 = ref)).map Prod.snd

/-- The conversation record of a group is missing or well formed. -/
def Loadable (R : Profile L) (g : GroupId) : Prop :=
  ∀ c, R.records (.conv g) = some c → c.check L = true ∧ c.groupId = g

/-- Group ids of the stored conversations. -/
def conversations (R : Profile L) : List GroupId :=
  R.names.filterMap fun n => match n with
    | .conv g => some g
    | _ => none

end Profile

/-- What an attempt computes from what it reads. -/
structure Plan (L : Libraries) where
  binding : WelcomePqBinding
  dk : Bytes
  group : L.Group
  provider : Provider L
  kind : Kind
  credential : Bytes

/-- The consumed KeyPackage. -/
def Plan.ref (p : Plan L) : KeyRef := p.binding.keyPackageRef

/-- The record the attempt writes. -/
def Plan.record (p : Plan L) (env : Joinable) : Conversation :=
  joinedRecord env p.dk p.binding p.credential p.kind

/-- How a join is attempted: the filters and permissions of the caller. -/
structure Route where
  onlyRef : Option KeyRef
  invitesOnly : Bool
  allowGroup : Bool

/-- Accepting a request joins groups too. -/
def Route.accept : Route := ⟨none, false, true⟩

/-- An attempt to join along a route. -/
def Route.join (ρ : Route) (dev : Session) (env : Joinable) : JoinProg L GroupId :=
  joinOne dev env ρ.onlyRef ρ.invitesOnly ρ.allowGroup

/-- What a pair or a group must look like. -/
def ShapeOk (dev : Session) (G : L.Group) (allowGroup : Bool) : Kind → Prop
  | .pair => L.isFreshPair G = true
  | .group => L.hasGroupShape G dev.signatureKey = true ∧ allowGroup = true

/-- The credential that goes into the record. -/
def CredentialOk (dev : Session) (G : L.Group) (credential : Bytes) : Kind → Prop
  | .pair => L.peerCredentialIdentity G dev.signatureKey = some credential
  | .group => credential = []

/-- The Welcome consumes a KeyPackage whose decapsulation key is held. -/
structure FindsKey (env : Joinable) (ρ : Route) (R : Profile L) (binding : WelcomePqBinding)
    (dk : Bytes) : Prop where
  bound : R.provider.welcomePqBinding env.ciphertext = .ok binding
  only : ρ.onlyRef.all (· = binding.keyPackageRef) = true
  key : R.pqKey binding.keyPackageRef = some dk
  invited : ρ.invitesOnly = true → (R.records (.inviteKp binding.keyPackageRef)).isSome
  valid : L.validDecapKey dk binding.encapKey = true

/-- The Welcome opens, to a group that may be joined. -/
structure Opens (dev : Session) (env : Joinable) (ρ : Route) (R : Profile L) (G : L.Group)
    (P' : Provider L) (kind : Kind) (credential : Bytes) : Prop where
  joined : R.provider.joinGroup env.ciphertext = .ok (env.groupId, G, P')
  hasKind : L.kind G = some kind
  shape : ShapeOk dev G ρ.allowGroup kind
  resumable : ∀ c, R.records (.conv env.groupId) = some c → c.kind = kind ∧ c.role = .joiner
  named : CredentialOk dev G credential kind

/-- The profile lets the attempt go on to its writes. -/
structure Admits (dev : Session) (env : Joinable) (ρ : Route) (R : Profile L) (p : Plan L) :
    Prop where
  loadable : R.Loadable env.groupId
  absent : R.provider.groups env.groupId = none
  finds : FindsKey env ρ R p.binding p.dk
  opens : Opens dev env ρ R p.group p.provider p.kind p.credential

section Reading

variable {A : Choice L → Prop} {C : World L → Prop} {w : World L} {α : Type}

theorem wp_loadProvider {Q : Except Error (Provider L) → World L → Prop} (hC : C w)
    (hok : Q (.ok w.profile.provider) w) (herr : OnFault A (Q (.error .store) w)) :
    wp (machine L) A loadProvider Q C w :=
  wp_bind.mpr (wp_read hC ⟨hC, hok⟩ herr)

theorem wp_pqKeyFor {ref : KeyRef} {Q : Except Error (Option Bytes) → World L → Prop} (hC : C w)
    (hok : Q (.ok (w.profile.pqKey ref)) w) (herr : OnFault A (Q (.error .store) w)) :
    wp (machine L) A (pqKeyFor ref) Q C w :=
  wp_bind.mpr (wp_bind.mpr (wp_read hC ⟨hC, hC, hok⟩ herr))

theorem wp_orFatal {p : Prog L α} {Q : Except JoinOutcome α → World L → Prop}
    (h : wp (machine L) A p (fun r t => C t ∧ Q (r.mapError .fatal) t) C w) :
    wp (machine L) A (orFatal p) Q C w := by
  rw [orFatal, mapError, wp_handle]
  exact wp_mono (fun r t ht => wp_ofExcept.mpr ht) (fun _ ht => ht) h

theorem wp_orSkip {x : Option α} {Q : Except JoinOutcome α → World L → Prop} (hC : C w)
    (hsome : ∀ a, x = some a → Q (.ok a) w) (hnone : x = none → Q (.error .skip) w) :
    wp (machine L) A (orSkip x : JoinProg L α) Q C w := by
  cases x with
  | some a => exact ⟨hC, hsome a rfl⟩
  | none => exact ⟨hC, hnone rfl⟩

theorem wp_loadOrSkip {g : GroupId} {Q : Except JoinOutcome (Option Conversation) → World L → Prop}
    (hC : C w) (hok : w.profile.Loadable g → Q (.ok (w.profile.records (.conv g))) w)
    (hbad : ¬w.profile.Loadable g → Q (.error .skip) w) (herr : OnFault A (∀ e, Q (.error e) w)) :
    wp (machine L) A (loadOrSkip g) Q C w := by
  rw [loadOrSkip, wp_handle, load, wp_bind]
  refine wp_read hC ?_ fun c hc h => ⟨hC, herr c hc h _⟩
  rw [andThen_ok]
  cases hrec : w.profile.records (.conv g) with
  | none =>
    refine ⟨hC, hC, ?_⟩
    have := hok fun c hc => by simp [hrec] at hc
    rwa [hrec] at this
  | some c =>
    rw [wp_bind]
    refine wp_ensure hC (fun hb => ?_) fun hb => ?_
    · simp only [Bool.and_eq_true, decide_eq_true_eq] at hb
      have hload : w.profile.Loadable g := by
        intro c' hc'
        obtain rfl : c = c' := some.inj (hrec.symm.trans hc')
        exact hb
      have := hok hload
      rw [hrec] at this
      exact ⟨hC, hC, this⟩
    · refine ⟨hC, hbad fun hload => ?_⟩
      obtain ⟨hcheck, hg⟩ := hload c hrec
      simp [hcheck, hg] at hb

variable {dev : Session} {env : Joinable} {ρ : Route}

theorem wp_checkInvite {invitesOnly : Bool} {ref : KeyRef} (hC : C w)
    (hok : (invitesOnly = true → (w.profile.records (.inviteKp ref)).isSome) → Q (.ok ()) w)
    (hno : ¬(invitesOnly = true → (w.profile.records (.inviteKp ref)).isSome) → ∀ e, Q (.error e) w)
    (herr : OnFault A (∀ e, Q (.error e) w)) :
    wp (machine L) A (checkInvite invitesOnly ref) Q C w := by
  cases invitesOnly with
  | false => exact ⟨hC, hok fun h => by cases h⟩
  | true =>
    change wp _ _ (orFatal (get (.inviteKp ref)) >>= _) _ _ w
    rw [wp_bind]
    refine wp_orFatal (wp_read hC ⟨hC, ?_⟩ fun c hc h => ⟨hC, herr c hc h _⟩)
    refine wp_ensure hC (fun h => hok fun _ => h) fun h => hno (fun hall => ?_) _
    rw [hall rfl] at h
    cases h

theorem wp_checkShape {ref : KeyRef} {allowGroup : Bool} (hC : C w)
    (hok : ShapeOk dev G allowGroup kind → Q (.ok ()) w)
    (hno : ¬ShapeOk dev G allowGroup kind → ∀ e, Q (.error e) w) :
    wp (machine L) A (checkShape dev G ref allowGroup kind) Q C w := by
  cases kind with
  | pair =>
    refine wp_ensure hC hok fun h => hno (fun hs => ?_) _
    rw [show L.isFreshPair G = true from hs] at h
    cases h
  | group =>
    rw [checkShape, wp_bind]
    refine wp_ensure hC (fun hshape => ?_) fun h => hno (fun hs => ?_) _
    · refine wp_ensure hC (fun hallow => hok ⟨hshape, hallow⟩) fun h => hno (fun hs => ?_) _
      rw [hs.2] at h
      cases h
    · rw [hs.1] at h
      cases h

theorem wp_ensureResumable {g : GroupId} (hC : C w) (hload : w.profile.Loadable g)
    (hok : (∀ c, w.profile.records (.conv g) = some c → c.kind = kind ∧ c.role = .joiner) →
      Q (.ok ()) w)
    (hno : ¬(∀ c, w.profile.records (.conv g) = some c → c.kind = kind ∧ c.role = .joiner) →
      ∀ e, Q (.error e) w) (herr : OnFault A (∀ e, Q (.error e) w)) :
    wp (machine L) A (ensureResumable g kind) Q C w := by
  rw [ensureResumable, wp_bind]
  refine wp_loadOrSkip hC (fun _ => ?_) (fun h => absurd hload h) herr
  cases hrec : w.profile.records (.conv g) with
  | none => exact ⟨hC, hok fun c hc => by simp [hrec] at hc⟩
  | some c =>
    refine wp_ensure hC (fun h => hok fun c' hc' => ?_) fun h => hno (fun hall => ?_) _
    · obtain rfl : c = c' := some.inj (hrec.symm.trans hc')
      simpa using h
    · obtain ⟨hkind, hrole⟩ := hall c hrec
      simp [hkind, hrole] at h

theorem wp_joinCredential {Q : Except JoinOutcome Bytes → World L → Prop} (hC : C w)
    (hok : ∀ credential, CredentialOk dev G credential kind → Q (.ok credential) w)
    (hno : (∀ credential, ¬CredentialOk dev G credential kind) → ∀ e, Q (.error e) w) :
    wp (machine L) A (joinCredential dev G kind) Q C w := by
  cases kind with
  | pair =>
    refine wp_orSkip hC (fun c hc => hok c hc) fun h => hno (fun c hc => ?_) _
    rw [show L.peerCredentialIdentity G dev.signatureKey = some c from hc] at h
    cases h
  | group => exact ⟨hC, hok [] rfl⟩

theorem wp_findKey {Q : Except JoinOutcome (WelcomePqBinding × Bytes) → World L → Prop} (hC : C w)
    (hok : ∀ binding dk, FindsKey env ρ w.profile binding dk → Q (.ok (binding, dk)) w)
    (hno : (∀ binding dk, ¬FindsKey env ρ w.profile binding dk) → ∀ e, Q (.error e) w)
    (herr : OnFault A (∀ e, Q (.error e) w)) :
    wp (machine L) A (findKey w.profile.provider env ρ.onlyRef ρ.invitesOnly) Q C w := by
  rw [findKey, wp_bind]
  refine wp_orSkip hC (fun binding hbinding => ?_) fun hbinding => hno (fun b dk h => ?_) _
  swap
  · rw [h.bound] at hbinding
    cases hbinding
  have hb : w.profile.provider.welcomePqBinding env.ciphertext = .ok binding :=
    eq_ok_of_toOption hbinding
  have hsame : ∀ {b dk}, FindsKey env ρ w.profile b dk → b = binding :=
    fun h => Except.ok.inj (h.bound.symm.trans hb)
  rw [andThen_bind]
  refine wp_ensure hC (fun honly => ?_) fun honly => hno (fun b dk h => ?_) _
  swap
  · rw [← hsame h, h.only] at honly
    cases honly
  rw [andThen_bind]
  refine wp_orFatal (wp_pqKeyFor hC ⟨hC, ?_⟩ fun c hc h => ⟨hC, herr c hc h _⟩)
  change wp _ _ (orSkip (w.profile.pqKey binding.keyPackageRef) >>= _) _ _ w
  rw [wp_bind]
  refine wp_orSkip hC (fun dk hdk => ?_) fun hdk => hno (fun b dk h => ?_) _
  swap
  · rw [← hsame h, h.key] at hdk
    cases hdk
  have hsameKey : ∀ {b dk'}, FindsKey env ρ w.profile b dk' → dk' = dk := by
    intro b dk' h
    rw [← hsame h, h.key] at hdk
    exact some.inj hdk
  rw [andThen_bind]
  refine wp_checkInvite hC (fun hinv => ?_)
    (fun hinv e => hno (fun b dk h => hinv (hsame h ▸ h.invited)) e) herr
  rw [andThen_bind]
  refine wp_ensure hC (fun hvalid => ?_) fun hvalid => hno (fun b dk h => ?_) _
  swap
  · rw [← hsame h, ← hsameKey h, h.valid] at hvalid
    cases hvalid
  exact ⟨hC, hok binding dk ⟨hb, honly, hdk, hinv, hvalid⟩⟩

theorem wp_openWelcome {ref : KeyRef}
    {Q : Except JoinOutcome (L.Group × Provider L × Kind × Bytes) → World L → Prop} (hC : C w)
    (hload : w.profile.Loadable env.groupId)
    (hok : ∀ G P' kind credential, Opens dev env ρ w.profile G P' kind credential →
      Q (.ok (G, P', kind, credential)) w)
    (hno : (∀ G P' kind credential, ¬Opens dev env ρ w.profile G P' kind credential) →
      ∀ e, Q (.error e) w) (herr : OnFault A (∀ e, Q (.error e) w)) :
    wp (machine L) A (openWelcome dev w.profile.provider env ref ρ.allowGroup) Q C w := by
  rw [openWelcome, wp_bind]
  refine wp_orSkip hC (fun joined hjoined => ?_) fun hjoined => hno (fun G P' k cr h => ?_) _
  swap
  · rw [h.joined] at hjoined
    cases hjoined
  have hj := eq_ok_of_toOption hjoined
  obtain ⟨groupId, G, P'⟩ := joined
  -- `Opens` fixes each answer, so the check that refuses shows that nothing opens
  have hsame : ∀ {G₁ P₁ k cr}, Opens dev env ρ w.profile G₁ P₁ k cr →
      env.groupId = groupId ∧ G₁ = G ∧ P₁ = P' := by
    intro G₁ P₁ k cr h
    simpa using Except.ok.inj (h.joined.symm.trans hj)
  rw [andThen_bind]
  refine wp_orSkip hC (fun kind hkind => ?_) fun hkind => hno (fun G₁ P₁ k cr h => ?_) _
  swap
  · rw [← (hsame h).2.1, h.hasKind] at hkind
    cases hkind
  have hsameKind : ∀ {G₁ P₁ k cr}, Opens dev env ρ w.profile G₁ P₁ k cr → k = kind := by
    intro G₁ P₁ k cr h
    rw [← (hsame h).2.1, h.hasKind] at hkind
    exact some.inj hkind
  rw [andThen_bind]
  refine wp_ensure hC (fun hg => ?_) fun hg => hno (fun G₁ P₁ k cr h => ?_) _
  swap
  · exact of_decide_eq_false hg (hsame h).1.symm
  obtain rfl : groupId = env.groupId := of_decide_eq_true hg
  rw [andThen_bind]
  refine wp_checkShape hC (fun hshape => ?_) fun hshape e => hno (fun G₁ P₁ k cr h => hshape ?_) e
  swap
  · rw [← (hsame h).2.1, ← hsameKind h]
    exact h.shape
  rw [andThen_bind]
  refine wp_ensureResumable hC hload (fun hres => ?_)
    (fun hres e => hno (fun G₁ P₁ k cr h => hres (hsameKind h ▸ h.resumable)) e) herr
  rw [andThen_bind]
  refine wp_joinCredential hC (fun credential hcred => ?_) fun hcred e =>
    hno (fun G₁ P₁ k cr h => hcred cr ?_) e
  · exact ⟨hC, hok G P' kind credential ⟨hj, hkind, hshape, hres, hcred⟩⟩
  · rw [← (hsame h).2.1, ← hsameKind h]
    exact h.named

/-- An attempt reads, and then either fails or makes the writes of its plan. -/
theorem wp_joinOne {Q : Except JoinOutcome GroupId → World L → Prop} (hC : C w)
    (hplan : ∀ p, Admits dev env ρ w.profile p →
      wp (machine L) A (storeJoin (p.record env) p.provider p.ref)
        (fun r t => C t ∧ Q (r.map fun _ => env.groupId) t) C w)
    (hno : (∀ p, ¬Admits dev env ρ w.profile p) → ∀ e, Q (.error e) w)
    (herr : OnFault A (∀ e, Q (.error e) w)) : wp (machine L) A (ρ.join dev env) Q C w := by
  rw [Route.join, joinOne, wp_bind]
  refine wp_orFatal (wp_loadProvider hC ⟨hC, ?_⟩ fun c hc h => ⟨hC, herr c hc h _⟩)
  change wp _ _ (checkGroupNotHeld w.profile.provider env.groupId >>= _) _ _ w
  rw [wp_bind, checkGroupNotHeld, wp_bind]
  refine wp_loadOrSkip hC (fun hload => ?_) (fun hload => hno (fun p hp => hload hp.loadable) _)
    herr
  refine wp_ensure hC (fun habsent => ?_) fun habsent => hno (fun p hp => ?_) _
  swap
  · simp [hp.absent] at habsent
  rw [andThen_bind]
  refine wp_findKey hC (fun binding dk hfinds => ?_) (fun hnone => ?_) herr
  swap
  · exact hno fun p hp => hnone _ _ hp.finds
  rw [andThen_bind]
  refine wp_openWelcome hC hload (fun G P' kind credential hopens => ?_) (fun hnone => ?_) herr
  swap
  · exact hno fun p hp => hnone _ _ _ _ hp.opens
  rw [andThen_bind]
  have hadmits : Admits dev env ρ w.profile ⟨binding, dk, G, P', kind, credential⟩ :=
    ⟨hload, isNone_iff_eq_none.mp habsent, hfinds, hopens⟩
  have hstore := hplan _ hadmits
  refine wp_mono (fun r t ht => ?_) (fun _ ht => ht) hstore
  rcases r with e | _
  · exact ht.2
  · exact ht

end Reading

/-! ### What an attempt writes -/

namespace World

/-- The conversation record is written. -/
def withRecord (w : World L) (conv : Conversation) : World L := w.write (.conv conv.groupId) conv

/-- The MLS state is written too. -/
def withState (w : World L) (conv : Conversation) (P' : Provider L) : World L :=
  (w.withRecord conv).write .mlsProvider P'

/-- A decapsulation key is dropped, if it is there. -/
def withoutKey (w : World L) (ref : KeyRef) : World L :=
  let kept := w.profile.pqKeys.filter (·.1 ≠ ref)
  if kept.length ≠ w.profile.pqKeys.length then w.write .pqKeys kept else w

/-- The worlds an attempt goes through, in order. -/
def joinStates (w : World L) (conv : Conversation) (P' : Provider L) (ref : KeyRef) :
    List (World L) :=
  [w, w.withRecord conv, w.withState conv P', (w.withState conv P').withoutKey ref,
    ((w.withState conv P').withoutKey ref).erase (.inviteKp ref)]

end World

/-- The store has room for what an attempt writes. -/
structure Storable (R : Profile L) (conv : Conversation) (ref : KeyRef) : Prop where
  check : conv.check L = true
  room : conv.groupId ∈ R.conversations ∨ R.conversations.length < Conversation.maxConversations
  keys : (R.pqKeys.filter (·.1 ≠ ref)).length ≠ R.pqKeys.length →
    (R.pqKeys.filter (·.1 ≠ ref)).length ≤ PqKeys.maxPqKeys

section Writing

variable {A : Choice L → Prop} {C : World L → Prop} {w : World L}

theorem wp_save {conv : Conversation} {Q : Except Error Unit → World L → Prop} (hC : C w)
    (hC' : C (w.withRecord conv))
    (hok : conv.check L = true → conv.groupId ∈ w.profile.conversations ∨
      w.profile.conversations.length < maxConversations →
      Q (.ok ()) (w.withRecord conv))
    (hbad : ¬(conv.check L = true ∧ (conv.groupId ∈ w.profile.conversations ∨
      w.profile.conversations.length < maxConversations)) → ∀ e, Q (.error e) w)
    (herr : OnFault A (Q (.error .store) w ∧ Q (.error .store) (w.withRecord conv))) :
    wp (machine L) A conv.save Q C w := by
  rw [save, wp_bind]
  refine wp_ensure hC (fun hcheck => ?_) fun hcheck => hbad (fun h => ?_) _
  swap
  · rw [h.1] at hcheck
    cases hcheck
  rw [andThen_bind, list, wp_bind]
  refine wp_readNames hC ⟨hC, ?_⟩ fun c hc h => (herr c hc h).1
  change wp _ _ (ensure (conv.groupId ∈ w.profile.conversations ||
    w.profile.conversations.length < maxConversations) Error.tooMany >>= _) _ _ w
  rw [wp_bind]
  refine wp_ensure hC (fun hroom => ?_) fun hroom => hbad (fun h => ?_) _
  · exact wp_write hC hC' (hok hcheck (by simpa using hroom)) herr
  · rw [Bool.or_eq_false_iff, decide_eq_false_iff_not, decide_eq_false_iff_not] at hroom
    exact h.2.elim hroom.1 hroom.2

theorem wp_prunePqKey {ref : KeyRef} {Q : Except Error Unit → World L → Prop} (hC : C w)
    (hC' : C (w.withoutKey ref))
    (hok : ((w.profile.pqKeys.filter (·.1 ≠ ref)).length ≠ w.profile.pqKeys.length →
      (w.profile.pqKeys.filter (·.1 ≠ ref)).length ≤ PqKeys.maxPqKeys) →
      Q (.ok ()) (w.withoutKey ref))
    (hbad : ¬((w.profile.pqKeys.filter (·.1 ≠ ref)).length ≠ w.profile.pqKeys.length →
      (w.profile.pqKeys.filter (·.1 ≠ ref)).length ≤ PqKeys.maxPqKeys) → ∀ e, Q (.error e) w)
    (herr : OnFault A (Q (.error .store) w ∧ Q (.error .store) (w.withoutKey ref))) :
    wp (machine L) A (prunePqKey ref) Q C w := by
  rw [prunePqKey, wp_bind, PqKeys.load, wp_bind]
  refine wp_read hC ⟨hC, ?_⟩ fun c hc h => (herr c hc h).1
  change wp _ _ (if (w.profile.pqKeys.filter (·.1 ≠ ref)).length ≠ w.profile.pqKeys.length then
    PqKeys.save (w.profile.pqKeys.filter (·.1 ≠ ref)) else Pure.pure ()) _ _ w
  by_cases hkept : (w.profile.pqKeys.filter (·.1 ≠ ref)).length ≠ w.profile.pqKeys.length
  · have hw : w.withoutKey ref = w.write .pqKeys (w.profile.pqKeys.filter (·.1 ≠ ref)) :=
      if_pos hkept
    rw [hw] at hC' hok herr
    rw [if_pos hkept, PqKeys.save, wp_bind]
    refine wp_ensure hC (fun hlen => ?_) fun hlen => hbad (fun h => ?_) _
    · exact wp_write hC hC' (hok fun _ => of_decide_eq_true hlen) herr
    · exact of_decide_eq_false hlen (h hkept)
  · rw [if_neg hkept]
    rw [withoutKey, if_neg hkept] at hok
    exact ⟨hC, hok fun h => absurd h hkept⟩

variable {conv : Conversation} {P' : Provider L} {ref : KeyRef}

/-- The writes of an attempt go through the join states in order. -/
theorem wp_storeJoin (hC : ∀ t ∈ w.joinStates conv P' ref, C t) (hok : Storable w.profile conv ref →
      Q (.ok ()) (((w.withState conv P').withoutKey ref).erase (.inviteKp ref)))
    (hbad : ¬Storable w.profile conv ref → ∀ e, ∀ t ∈ w.joinStates conv P' ref, Q (.error e) t)
    (herr : ∀ c, A c → c.store ≠ .none →
      (∀ e, ∀ t ∈ w.joinStates conv P' ref, Q (.error e) t) ∧
        Q (.ok ()) ((w.withState conv P').withoutKey ref)) :
    wp (machine L) A (storeJoin conv P' ref) Q C w := by
  obtain ⟨hC0, hC1, hC2, hC3, hC4⟩ : C w ∧ C (w.withRecord conv) ∧ C (w.withState conv P') ∧
      C ((w.withState conv P').withoutKey ref) ∧
      C (((w.withState conv P').withoutKey ref).erase (.inviteKp ref)) := by
    simpa [joinStates] using hC
  rw [storeJoin, wp_bind]
  refine wp_orFatal (wp_save hC0 hC1 (fun hcheck hroom => ⟨hC1, ?_⟩)
    (fun hbad' e => ⟨hC0, hbad (fun h => hbad' ⟨h.check, h.room⟩) _ _ (by simp [joinStates])⟩)
    fun c hc h => ⟨⟨hC0, (herr c hc h).1 _ _ (by simp [joinStates])⟩,
      hC1, (herr c hc h).1 _ _ (by simp [joinStates])⟩)
  change wp _ _ (orFatal (saveProvider P') >>= _) _ _ (w.withRecord conv)
  rw [wp_bind]
  refine wp_orFatal (wp_write hC1 hC2 ⟨hC2, ?_⟩ fun c hc h =>
    ⟨⟨hC1, (herr c hc h).1 _ _ (by simp [joinStates])⟩,
      hC2, (herr c hc h).1 _ _ (by simp [joinStates, withState])⟩)
  change wp _ _ (orFatal (prunePqKey ref) >>= _) _ _ (w.withState conv P')
  rw [wp_bind]
  refine wp_orFatal (wp_prunePqKey hC2 hC3 (fun hkeys => ⟨hC3, ?_⟩)
    (fun hbad' e => ⟨hC2, hbad (fun h => ?_) _ _ ?_⟩)
    fun c hc h => ⟨⟨hC2, (herr c hc h).1 _ _ (by simp [joinStates])⟩,
      hC3, (herr c hc h).1 _ _ (by simp [joinStates])⟩)
  · have hstorable : Storable w.profile conv ref := ⟨hcheck, hroom, hkeys⟩
    change wp _ _ (orFatal (remove (.inviteKp ref)).attempt >>= _) _ _ _
    rw [wp_bind]
    refine wp_orFatal (wp_attempt.mpr (wp_erase hC3 hC4 ⟨hC4, hC4, hok hstorable⟩ fun c hc h => ?_))
    exact ⟨⟨hC3, hC3, (herr c hc h).2⟩, hC4, hC4, hok hstorable⟩
  · exact hbad' h.keys
  · simp [joinStates]

end Writing

/-! ### Interrupted attempts -/

/-- The MLS group and a record that agrees with it are durable. -/
def Holds (R : Profile L) (g : GroupId) : Prop :=
  ∃ G c, R.provider.groups g = some G ∧ R.records (.conv g) = some c ∧ c.groupId = g ∧
    c.check L = true ∧ c.agreesWith L G = true

/-- An attempt that may be cut off anywhere, in any environment. -/
def Attempted (dev : Session) (env : Joinable) (w : World L) (ρ : Route) (t : World L) : Prop :=
  ∃ f, t ∈ (ρ.join dev env).crashStates (machine L) f w

section Attempts

variable {dev : Session} {env : Joinable} {ρ ρ' : Route} {w t : World L} {p p' : Plan L}
  {R R' : Profile L} {g : GroupId}

/-- What holds in all states of a join holds wherever an attempt is cut off. -/
theorem Attempted.of_states {C : World L → Prop} (h : Attempted dev env w ρ t) (hw : C w)
    (hstates : ∀ p, Admits dev env ρ w.profile p →
      ∀ u ∈ w.joinStates (p.record env) p.provider p.ref, C u) : C t := by
  obtain ⟨f, ht⟩ := h
  have hwp : wp (machine L) (fun _ => True) (ρ.join dev env) (fun _ _ => True) C w := by
    refine wp_joinOne hw (fun p hp => ?_) (fun _ _ => trivial) fun _ _ _ _ => trivial
    have hstates := hstates p hp
    exact wp_storeJoin hstates (fun _ => ⟨hstates _ (by simp [joinStates]), trivial⟩)
      (fun _ _ t ht => ⟨hstates t ht, trivial⟩) fun _ _ _ =>
        ⟨fun _ t ht => ⟨hstates t ht, trivial⟩, hstates _ (by simp [joinStates]), trivial⟩
  exact wp_crashStates hwp (fun _ => trivial) t ht

/-- What is read determines the plan, whatever the route and the conversation records. -/
theorem Admits.unique (h : Admits dev env ρ R p) (h' : Admits dev env ρ' R' p')
    (hprovider : R'.provider = R.provider) (hkeys : R'.pqKeys = R.pqKeys) : p' = p := by
  have hbinding : p'.binding = p.binding := by
    have := h'.finds.bound
    rw [hprovider, h.finds.bound] at this
    exact (Except.ok.inj this).symm
  have hdk : p'.dk = p.dk := by
    have := h'.finds.key
    rw [pqKey, hkeys, hbinding] at this
    exact (some.inj (h.finds.key.symm.trans this)).symm
  obtain ⟨hgroup, hprov⟩ : p'.group = p.group ∧ p'.provider = p.provider := by
    have := h'.opens.joined
    rw [hprovider, h.opens.joined] at this
    simpa [eq_comm] using Except.ok.inj this
  have hkind : p'.kind = p.kind := by
    have := h'.opens.hasKind
    rw [hgroup, h.opens.hasKind] at this
    exact (some.inj this).symm
  have hcred : p'.credential = p.credential := by
    have hc := h.opens.named
    have hc' := h'.opens.named
    rw [hgroup, hkind] at hc'
    cases hk : p.kind with
    | pair =>
      rw [hk] at hc hc'
      exact some.inj (hc'.symm.trans hc)
    | group =>
      rw [hk] at hc hc'
      exact hc'.trans hc.symm
  cases p
  cases p'
  simp_all

theorem Holds.congr (h : Holds R g) (hprovider : R'.records .mlsProvider = R.records .mlsProvider)
    (hconv : R'.records (.conv g) = R.records (.conv g)) : Holds R' g := by
  unfold Holds provider at h ⊢
  rwa [hprovider, hconv]

/-- The key store after a join: the group is there and the KeyPackage is gone. -/
theorem joinGroup_cases {P P' : Provider L} {welcome : Bytes}
    (h : P.joinGroup welcome = .ok (g, G, P')) :
    ∃ ref b, P.welcomeBundle welcome = some (ref, b) ∧
      P' = (P.deleteKeyPackage ref).setGroup g (some G) := by
  unfold Provider.joinGroup at h
  split at h
  · cases h
  · next ref b hbundle =>
    split at h
    · cases h
    · obtain ⟨rfl, rfl, rfl⟩ : _ ∧ _ ∧ _ := by simpa using Except.ok.inj h
      exact ⟨ref, b, hbundle, rfl⟩

theorem Admits.groups_provider (hp : Admits dev env ρ R p) :
    p.provider.groups env.groupId = some p.group := by
  obtain ⟨ref, b, -, hprovider⟩ := joinGroup_cases hp.opens.joined
  rw [hprovider, Provider.groups_setGroup_self]

theorem provider_withState (w : World L) (conv : Conversation) (P : Provider L) :
    (w.withState conv P).profile.provider = P := by
  rw [provider, withState, World.profile_write, records_put_self, getD_some]

theorem conv_withState {conv : Conversation} {P : Provider L} (hg : conv.groupId = g) :
    (w.withState conv P).profile.records (.conv g) = some conv := by
  rw [withState, World.profile_write, records_put_ne (by simp), World.withRecord,
    World.profile_write, ← hg, records_put_self]

theorem records_withoutKey (w : World L) (ref : KeyRef) {n : Name} (hn : n ≠ .pqKeys) :
    (w.withoutKey ref).profile.records n = w.profile.records n := by
  unfold withoutKey
  dsimp only
  split
  · exact records_put_ne hn
  · rfl

theorem provider_withoutKey (w : World L) (ref : KeyRef) :
    (w.withoutKey ref).profile.provider = w.profile.provider := by
  rw [provider, records_withoutKey w ref (by simp), provider]

theorem provider_erase_marker (w : World L) (ref : KeyRef) :
    (w.erase (.inviteKp ref)).profile.provider = w.profile.provider := by
  rw [provider, profile_erase, records_remove_ne (by simp), provider]

/-- Dropping the key and the marker leaves the join as it is. -/
theorem Holds.withoutKey (h : Holds w.profile g) (ref : KeyRef) :
    Holds (w.withoutKey ref).profile g :=
  h.congr (records_withoutKey w ref (by simp)) (records_withoutKey w ref (by simp))

theorem Holds.erase_marker (h : Holds w.profile g) (ref : KeyRef) :
    Holds (w.erase (.inviteKp ref)).profile g :=
  h.congr (records_remove_ne (by simp)) (records_remove_ne (by simp))

/-- With the record written, the same attempt can still be made. -/
theorem Admits.withRecord (hp : Admits dev env ρ w.profile p)
    (hcheck : (p.record env).check L = true) :
    Admits dev env ρ (w.withRecord (p.record env)).profile p := by
  have hg : (p.record env).groupId = env.groupId := groupId_joinedRecord ..
  have hrecord : (w.withRecord (p.record env)).profile.records (.conv env.groupId) =
      some (p.record env) := by
    rw [World.withRecord, World.profile_write, ← hg, records_put_self]
  constructor
  · intro c hc
    obtain rfl := some.inj (hrecord.symm.trans hc)
    exact ⟨hcheck, hg⟩
  · exact hp.absent
  · refine ⟨?_, hp.finds.only, ?_, fun h => ?_, hp.finds.valid⟩
    · exact hp.finds.bound
    · exact hp.finds.key
    · exact hp.finds.invited h
  · refine ⟨?_, hp.opens.hasKind, hp.opens.shape, fun c hc => ?_, hp.opens.named⟩
    · exact hp.opens.joined
    · obtain rfl := some.inj (hrecord.symm.trans hc)
      exact ⟨kind_joinedRecord .., role_joinedRecord ..⟩

theorem Storable.withRecord (hs : Storable w.profile (p.record env) p.ref) :
    Storable (w.withRecord (p.record env)).profile (p.record env) p.ref := by
  have hkeys : (w.withRecord (p.record env)).profile.pqKeys = w.profile.pqKeys := by
    rw [pqKeys, World.withRecord, World.profile_write, records_put_ne (by simp),
      pqKeys]
  refine ⟨hs.check, .inl ?_, hkeys ▸ hs.keys⟩
  have hmem : Name.conv (p.record env).groupId ∈
      (w.withRecord (p.record env)).profile.names := by
    rw [mem_names, World.withRecord, World.profile_write, records_put_self]
    rfl
  exact mem_filterMap.mpr ⟨_, hmem, rfl⟩

end Attempts

/-- A device that was invited to a pair: KeyPackage 5 with its key and its marker. -/
def invited : World Toy.libraries :=
  let profile : Profile Toy.libraries := (((∅ : Profile Toy.libraries).put .mlsProvider
    ((∅ : Provider Toy.libraries).addKeyPackage 5 (5 : ℕ))).put .pqKeys [(5, [5])]).put
      (.inviteKp 5) ()
  .new profile

end Powehi.Client
