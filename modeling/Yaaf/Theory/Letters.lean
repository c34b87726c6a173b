import Yaaf.Core.Peers
import Yaaf.Theory.Agreement
import Yaaf.Theory.Codec
import Yaaf.Theory.Delivery

/-!
# Requests and Replies

A letter is what one of the framework's actors was called with. It is packed,
carried over one connection, unpacked on the other side, and pushed to the
mailbox of the actor its name stands for there. The two directions are one
argument: what differs is the type the content is sent on as, and which of the
two actors stands at which end.

Every letter has a number, its position in the record of letters. Whatever is on
its way, as a packet, as a network thread with an address in hand, or as a push
that was made, carries the number of its letter, and `Carried` says that it also
carries what the letter says: the connection, the content where its encoding
fits, and an address that `get_address` answered while the packet was on the
wire. No number is on its way twice.

That the letters are the calls of the handlers and nothing else is a projection.
The letters of one context are what its trace yields, in order.

## Main definitions

* `Gains`: A context has gone on, and nothing on record was taken back.
* `Posted`: What handing some letters to the network does.
* `Contexts.uses`: How often a letter is on its way.
* `Answered`: `get_address` gave an address while the letter was on the wire.
* `Passed`: What a network thread has in hand, and the letter behind it.
* `Carried`: All that is on its way is behind a letter.
* `Underway`: Nothing that can go on is lost.
* `Denotes`: A push went where `get_address` said.

## Theorems

* `posts_posted`: Letters become packets.
* `step_carried`, `reach_carried`: What is on its way stays behind its letter.
* `letter_of_delivery`: What is behind a push.
* `requests_and_replies`: Both directions, for every push.
-/

namespace Yaaf

open Slots Trace

section Growth

variable {π : Type} {cfg : Config} {s s' : System π} {a : Action π}

/-- No context object is taken back. -/
theorem step_usrconts (hs : step cfg s a = some s') : ∀ uc ∈ s.usrconts, uc ∈ s'.usrconts := by
  have hkept : ∀ {u : System π}, u.usrconts = s.usrconts → ∀ uc ∈ s.usrconts, uc ∈ u.usrconts :=
    fun hu uc huc => hu ▸ huc
  cases (stepRule_of_step hs).2 with
  | call c s' h => exact hkept (by rw [callRule_rest h])
  | userCall uc uc' c s' hc h => exact hkept (by rw [callRule_rest h])
  | userNothing => exact hkept rfl
  | add i st c s' hi h =>
      cases h with
      | lookup => exact fun uc huc => List.mem_append_left _ huc
      | post m hc => exact hkept (by rw [System.postStart, userPost_rest]; rfl)
      | _ => exact hkept rfl
  | pick => exact hkept rfl
  | task i st s' h => exact hkept (by rw [taskRule_rest h])
  | worker st s' h => exact hkept (by rw [workerRule_rest h])
  | stop st s' h => exact hkept (by rw [stopRule_rest h])

/-- A context has gone on, and nothing on record was taken back. -/
structure Gains (s s' : System π) : Prop where
  agrees : Agrees s'
  registrations : ∀ r ∈ s.registrations, r ∈ s'.registrations
  usrconts : ∀ uc ∈ s.usrconts, uc ∈ s'.usrconts

theorem gains_refl (h : Agrees s) : Gains s s :=
  ⟨h, fun _ hr => hr, fun _ huc => huc⟩

theorem gains_trans {u : System π} (h : Gains s s') (h' : Gains s' u) : Gains s u :=
  ⟨h'.agrees, fun r hr => h'.registrations r (h.registrations r hr),
    fun uc huc => h'.usrconts uc (h.usrconts uc huc)⟩

theorem gains_of_step (hs : step cfg s a = some s') (h : Agrees s) : Gains s s' :=
  ⟨step_agrees hs h, step_registrations hs h.registered, step_usrconts hs⟩

theorem gains_crash (h : Agrees s) : Gains s s.crash :=
  ⟨⟨⟨{ h.registered.toFiled with }, h.registered.scanned⟩, h.numbered, h.unused⟩,
    fun _ hr => hr, fun _ huc => huc⟩

/-- The context object an actor was registered with has its address. -/
theorem contextObject_registered (hreg : Registered s) {a : ActorPtr}
    {ctx : UserContext} (h : s.contextObject a = some ctx) : ctx ∈ s.usrconts ∧
      ∃ r ∈ s.registrations, r.descr.actor = a ∧ r.descr.address = ctx.addr := by
  refine ⟨List.mem_of_find?_eq_some h, ?_⟩
  have hany := List.find?_some h
  simp only [List.any_eq_true] at hany
  rcases hany with ⟨ev, hev, hmatch⟩
  cases ev with
  | registered r =>
      have hr : r ∈ s.registrations := List.mem_filterMap.mpr ⟨_, hev, rfl⟩
      simp only [Bool.and_eq_true, beq_iff_eq] at hmatch
      refine ⟨r, hr, hmatch.1, ?_⟩
      rw [← hmatch.2, (hreg.records r hr).usrcont]
  | _ => exact absurd hmatch Bool.false_ne_true

/-- What `get_address` answers is the address of a registration. -/
theorem registration_of_getAddress (hreg : Registered s) {n : String}
    (hn : (s.getAddress n).empty = false) :
    ∃ r ∈ s.registrations, r.descr.address = s.getAddress n := by
  unfold System.getAddress at hn ⊢
  cases hk : (s.idByName.lookup n).bind fun id => s.actors.lookup id with
  | none =>
      rw [hk] at hn
      exact absurd hn (by decide)
  | some d =>
      rcases Option.bind_eq_some_iff.mp hk with ⟨k, _, hd⟩
      rcases hreg.entries k d hd with ⟨r, hr, _⟩
      exact ⟨r, hr.mem, by rw [hr.descr]⟩

end Growth

/-- A letter keeps its number. -/
theorem sent_append {ι : Type} {ls ls' : List (Letter ι)} {n : Nat} {l : Letter ι}
    (h : ls[n]? = some l) : (ls ++ ls')[n]? = some l := by
  rcases List.getElem?_eq_some_iff.mp h with ⟨hn, _⟩
  rw [List.getElem?_append_left hn]
  exact h

section Posts

variable {ι π : Type} {L : PeerConfig ι} {p q : Contexts ι π}

/-- What handing some letters to the network does: each becomes a packet under
    its own number, or the context that packs it is at its end. -/
structure Posted (L : PeerConfig ι) (p : Contexts ι π) (ls : List (Letter ι))
    (q : Contexts ι π) : Prop where
  sent : q.sent = p.sent ++ ls
  found : q.found = p.found
  delivered : q.delivered = p.delivered
  sys : ∀ P, q.sys P = p.sys P ∨ q.sys P = (p.sys P).crash
  wire : ∀ pk ∈ q.wire, pk ∈ p.wire ∨ ∃ l, q.sent[pk.serial]? = some l ∧ l.conn = pk.conn ∧
    l.asks = pk.asks ∧ l.content.getMessage L.sizeT = some pk.message
  count : ∀ n, q.wire.countP (fun pk => pk.serial == n) ≤
    p.wire.countP (fun pk => pk.serial == n) +
      if p.sent.length ≤ n ∧ n < q.sent.length then 1 else 0
  kept : ∀ pk ∈ p.wire, pk ∈ q.wire
  packed : ∀ n l, p.sent.length ≤ n → q.sent[n]? = some l → l.content.Fits L.sizeT →
    ∃ pk ∈ q.wire, pk.serial = n

theorem posted_trans {ls ls' : List (Letter ι)} {r : Contexts ι π} (h : Posted L p ls q)
    (h' : Posted L q ls' r) : Posted L p (ls ++ ls') r where
  sent := by rw [h'.sent, h.sent, List.append_assoc]
  found := h'.found.trans h.found
  delivered := h'.delivered.trans h.delivered
  sys P := by
    rcases h.sys P with hp | hp <;> rcases h'.sys P with hq | hq <;> rw [hq, hp]
    · exact Or.inl rfl
    · exact Or.inr rfl
    · exact Or.inr rfl
    · exact Or.inr rfl
  wire pk hpk := by
    rcases h'.wire pk hpk with hold | hnew
    · rcases h.wire pk hold with hold | ⟨l, hl, hrest⟩
      · exact Or.inl hold
      · exact Or.inr ⟨l, by rw [h'.sent]; exact sent_append hl, hrest⟩
    · exact Or.inr hnew
  count n := by
    have hp := h.count n
    have hq := h'.count n
    have hlen : q.sent.length = p.sent.length + ls.length := by rw [h.sent, List.length_append]
    have hlen' : r.sent.length = q.sent.length + ls'.length := by rw [h'.sent, List.length_append]
    -- A number is either one of the first letters or one of the others.
    by_cases hfirst : n < q.sent.length
    · rw [if_neg (by omega)] at hq
      by_cases hnew : p.sent.length ≤ n
      · rw [if_pos ⟨hnew, hfirst⟩] at hp
        rw [if_pos ⟨hnew, by omega⟩]
        omega
      · rw [if_neg (by omega)] at hp
        rw [if_neg (by omega)]
        omega
    · rw [if_neg (by omega)] at hp
      by_cases hlast : n < r.sent.length
      · rw [if_pos ⟨by omega, hlast⟩] at hq
        rw [if_pos ⟨by omega, hlast⟩]
        omega
      · rw [if_neg (by omega)] at hq
        rw [if_neg (by omega)]
        omega
  kept pk hpk := h'.kept pk (h.kept pk hpk)
  packed n l hn hl hfits := by
    by_cases hfirst : n < q.sent.length
    · rw [h'.sent, List.getElem?_append_left hfirst] at hl
      rcases h.packed n l hn hl hfits with ⟨pk, hpk, hserial⟩
      exact ⟨pk, h'.kept pk hpk, hserial⟩
    · exact h'.packed n l (Nat.le_of_not_lt hfirst) hl hfits

/-- The letter added last. -/
theorem sent_last {ls : List (Letter ι)} {l l' : Letter ι} {n : Nat} (hn : ls.length ≤ n)
    (h : (ls ++ [l])[n]? = some l') : n = ls.length ∧ l' = l := by
  rcases List.getElem?_eq_some_iff.mp h with ⟨hlt, _⟩
  rw [List.length_append, List.length_singleton] at hlt
  have heq : n = ls.length := by omega
  rw [heq, List.getElem?_concat_length, Option.some.injEq] at h
  exact ⟨heq, h.symm⟩

/-- One letter. -/
theorem post_posted [DecidableEq ι] (p : Contexts ι π) (l : Letter ι) : Posted L p [l] (p.post L l) := by
  unfold Contexts.post
  cases hmsg : l.content.getMessage L.sizeT with
  | none =>
      refine ⟨rfl, rfl, rfl, fun P => ?_, fun _ hpk => Or.inl hpk, fun n => Nat.le_add_right _ _,
        fun _ hpk => hpk, fun n l' hn hl hfits => ?_⟩
      · by_cases hP : P = sender l.conn l.asks
        · rw [hP]
          exact Or.inr (Function.update_self ..)
        · exact Or.inl (Function.update_of_ne hP ..)
      · -- What does not pack does not fit.
        rw [(sent_last hn hl).2] at hfits
        rcases unpack_getMessage hfits with ⟨nd, hnd, _⟩
        rw [hmsg] at hnd
        exact absurd hnd (by simp only [reduceCtorEq, not_false_eq_true])
  | some msg =>
      refine ⟨rfl, rfl, rfl, fun _ => Or.inl rfl, fun pk hpk => ?_, fun n => ?_,
        fun pk hpk => List.mem_append_left _ hpk, fun n l' hn hl _ => ?_⟩
      · rcases List.mem_append.mp hpk with hold | hnew
        · exact Or.inl hold
        · rw [List.mem_singleton.mp hnew]
          exact Or.inr ⟨l, List.getElem?_concat_length, rfl, rfl, hmsg⟩
      -- The packet has the serial number of the letter, which nothing had before.
      · simp only [List.countP_append, List.countP_cons, List.countP_nil, List.length_append,
          List.length_singleton, beq_iff_eq]
        by_cases hn : p.sent.length = n
        · rw [if_pos hn, if_pos ⟨Nat.le_of_eq hn, by omega⟩]
        · rw [if_neg hn, if_neg (by omega)]
      · exact ⟨_, List.mem_append_right _ (List.mem_singleton_self _), (sent_last hn hl).1.symm⟩

/-- Letters become packets. -/
theorem posts_posted [DecidableEq ι] (ls : List (Letter ι)) (p : Contexts ι π) :
    Posted L p ls (ls.foldl (Contexts.post L) p) := by
  induction ls generalizing p with
  | nil =>
      refine ⟨(List.append_nil _).symm, rfl, rfl, fun _ => Or.inl rfl, fun _ hpk => Or.inl hpk,
        fun n => Nat.le_add_right _ _, fun _ hpk => hpk, fun n l hn hl => ?_⟩
      rcases List.getElem?_eq_some_iff.mp hl with ⟨hlt, _⟩
      exact absurd hlt (Nat.not_lt_of_le hn)
  | cons l ls ih => exact posted_trans (post_posted p l) (ih (p.post L l))

/-- A letter comes from the context whose handler was called. -/
theorem letter_sender {P : Party ι} {ev : Event (NetPayload π)} {l : Letter ι}
    (h : L.letter? P ev = some l) : sender l.conn l.asks = P := by
  cases ev with
  | handleBegin a m e =>
      simp only [PeerConfig.letter?, Option.ite_none_right_eq_some, Option.join_eq_some_iff,
        Option.bind_eq_some_iff] at h
      rcases h with ⟨_, payload, _, hl⟩
      cases P with
      | listener =>
          cases payload <;> simp only [PeerConfig.actionHandle, PeerConfig.lstActionHandle,
            Option.some.injEq, Option.map_eq_some_iff, reduceCtorEq] at hl
          rcases hl with ⟨i, _, rfl⟩
          rfl
      | client i =>
          cases payload <;> simp only [PeerConfig.actionHandle, PeerConfig.conActionHandle,
            Option.some.injEq, reduceCtorEq] at hl
          rw [← hl]
          rfl
  | _ => exact absurd h (by simp only [PeerConfig.letter?, reduceCtorEq, not_false_eq_true])

end Posts

section Carried

variable {ι π : Type} [DecidableEq ι] {L : PeerConfig ι} {p q : Contexts ι π}

/-- `get_address` answered `addr` for a name while the letter was on the wire. -/
def Answered (L : PeerConfig ι) (p : Contexts ι π) (n : Nat) (P : Party ι) (name : Bytes)
    (addr : ActorAddress) : Prop :=
  ∃ q, (peers L).Reach Machine.free q ∧ (peers L).Path Machine.free q p ∧
    (∃ pk ∈ q.wire, pk.serial = n) ∧ (q.sys P).getAddress (stdString name) = addr ∧
      addr.empty = false

/-- What a network thread has in hand, and the letter behind it. -/
def Passed (L : PeerConfig ι) (p : Contexts ι π) (n : Nat) (P : Party ι) (author addr : ActorAddress)
    (payload : NetPayload π) : Prop :=
  ∃ l, p.sent[n]? = some l ∧ P = receiver l.conn l.asks ∧
    (∃ r ∈ (p.sys P).registrations, r.descr.actor = L.own P ∧ r.descr.address = author) ∧
    (∃ r ∈ (p.sys P).registrations, r.descr.address = addr) ∧
    (l.content.Fits L.sizeT → payload = L.onNewMessage l.conn l.asks l.content ∧
      Answered L p n P l.content.name addr)

/-- How often a letter is on its way: as a packet, in hand, or pushed. -/
def Contexts.uses (p : Contexts ι π) (n : Nat) : Nat :=
  p.wire.countP (fun pk => pk.serial == n) + p.found.countP (fun f => f.serial == n) +
    p.delivered.countP fun d => d.serial == n

/-- All that is on its way is behind a letter, and a letter is what a handler of
    the framework was called with. -/
structure Carried (L : PeerConfig ι) (p : Contexts ι π) : Prop where
  agrees : ∀ P, Agrees (p.sys P)
  letters : ∀ P, p.sent.filter (fun l => sender l.conn l.asks = P) =
    (p.sys P).trace.filterMap (L.letter? P)
  wire : ∀ pk ∈ p.wire, ∃ l, p.sent[pk.serial]? = some l ∧ l.conn = pk.conn ∧
    l.asks = pk.asks ∧ l.content.getMessage L.sizeT = some pk.message
  found : ∀ f ∈ p.found, f.ctx ∈ (p.sys f.party).usrconts ∧
    Passed L p f.serial f.party f.ctx.addr f.addr f.payload
  delivered : ∀ d ∈ p.delivered, (∃ payload, d.envelope.val.payload = some payload ∧
    Passed L p d.serial d.party d.envelope.val.sender d.addr payload) ∧
    ∃ r ∈ (p.sys d.party).registrations, r.mb = d.mb ∧ r.descr.address.id = d.addr.id
  once : ∀ n, p.uses n ≤ 1

/-- What is in hand stays so while nothing is taken back. -/
theorem passed_mono {n : Nat} {P : Party ι} {author addr : ActorAddress} {payload : NetPayload π}
    {ls : List (Letter ι)} (hsent : q.sent = p.sent ++ ls)
    (hregs : ∀ r ∈ (p.sys P).registrations, r ∈ (q.sys P).registrations)
    (hpath : (peers L).Path Machine.free p q) (h : Passed L p n P author addr payload) :
    Passed L q n P author addr payload := by
  rcases h with ⟨l, hl, hP, ⟨r, hr, hown⟩, ⟨r', hr', haddr⟩, hfits⟩
  refine ⟨l, by rw [hsent]; exact sent_append hl, hP, ⟨r, hregs r hr, hown⟩,
    ⟨r', hregs r' hr', haddr⟩, fun hfit => ?_⟩
  rcases hfits hfit with ⟨hpayload, t, ht, htp, hrest⟩
  exact ⟨hpayload, t, ht, Machine.path_trans htp hpath, hrest⟩

/-- A letter that has not been sent is not on its way. -/
theorem uses_unsent (h : Carried L p) {n : Nat} (hn : p.sent.length ≤ n) : p.uses n = 0 := by
  have hlt : ∀ {k : Nat} {l : Letter ι}, p.sent[k]? = some l → (k == n) = false := by
    intro k l hk
    rcases List.getElem?_eq_some_iff.mp hk with ⟨hk, _⟩
    exact beq_eq_false_iff_ne.mpr (by omega)
  have hwire : p.wire.countP (fun pk => pk.serial == n) = 0 := by
    refine List.countP_eq_zero.mpr fun pk hpk => ?_
    rcases h.wire pk hpk with ⟨l, hl, _⟩
    rw [hlt hl]
    exact Bool.false_ne_true
  have hfound : p.found.countP (fun f => f.serial == n) = 0 := by
    refine List.countP_eq_zero.mpr fun f hf => ?_
    rcases (h.found f hf).2 with ⟨l, hl, _⟩
    rw [hlt hl]
    exact Bool.false_ne_true
  have hdelivered : p.delivered.countP (fun d => d.serial == n) = 0 := by
    refine List.countP_eq_zero.mpr fun d hd => ?_
    rcases (h.delivered d hd).1 with ⟨payload, _, l, hl, _⟩
    rw [hlt hl]
    exact Bool.false_ne_true
  rw [Contexts.uses, hwire, hfound, hdelivered]

/-- What a step has to keep, in terms of what it adds. -/
theorem carried_of {ls : List (Letter ι)} (hpath : (peers L).Path Machine.free p q)
    (hgains : ∀ P, Gains (p.sys P) (q.sys P)) (hsent : q.sent = p.sent ++ ls)
    (hletters : ∀ P, q.sent.filter (fun l => sender l.conn l.asks = P) =
      (q.sys P).trace.filterMap (L.letter? P))
    (hwire : ∀ pk ∈ q.wire, pk ∈ p.wire ∨ ∃ l, q.sent[pk.serial]? = some l ∧
      l.conn = pk.conn ∧ l.asks = pk.asks ∧ l.content.getMessage L.sizeT = some pk.message)
    (hfound : ∀ f ∈ q.found, f ∈ p.found ∨ f.ctx ∈ (q.sys f.party).usrconts ∧
      Passed L q f.serial f.party f.ctx.addr f.addr f.payload)
    (hdelivered : ∀ d ∈ q.delivered, d ∈ p.delivered ∨
      (∃ payload, d.envelope.val.payload = some payload ∧
        Passed L q d.serial d.party d.envelope.val.sender d.addr payload) ∧
      ∃ r ∈ (q.sys d.party).registrations, r.mb = d.mb ∧ r.descr.address.id = d.addr.id)
    (honce : ∀ n, q.uses n ≤ p.uses n ∨ p.sent.length ≤ n ∧ q.uses n ≤ p.uses n + 1)
    (h : Carried L p) : Carried L q where
  agrees P := (hgains P).agrees
  letters := hletters
  -- What was under way keeps its letter, since letters are only added.
  wire pk hpk := by
    rcases hwire pk hpk with hold | hnew
    · rcases h.wire pk hold with ⟨l, hl, hrest⟩
      exact ⟨l, by rw [hsent]; exact sent_append hl, hrest⟩
    · exact hnew
  found f hf := by
    rcases hfound f hf with hold | hnew
    · rcases h.found f hold with ⟨hctx, hpassed⟩
      exact ⟨(hgains f.party).usrconts _ hctx,
        passed_mono hsent (hgains f.party).registrations hpath hpassed⟩
    · exact hnew
  delivered d hd := by
    rcases hdelivered d hd with hold | hnew
    · rcases h.delivered d hold with ⟨⟨payload, hpayload, hpassed⟩, r, hr, hmb⟩
      exact ⟨⟨payload, hpayload, passed_mono hsent (hgains d.party).registrations hpath hpassed⟩,
        r, (hgains d.party).registrations r hr, hmb⟩
    · exact hnew
  once n := by
    rcases honce n with hle | ⟨hn, hle⟩
    · exact Nat.le_trans hle (h.once n)
    · rw [uses_unsent h hn] at hle
      exact hle

theorem setSys_gains {P : Party ι} {s' : System (NetPayload π)} (h : Carried L p)
    (hgains : Gains (p.sys P) s') (Q : Party ι) : Gains (p.sys Q) ((p.setSys P s').sys Q) := by
  by_cases hQ : Q = P
  · rw [hQ, Contexts.setSys_self]
    exact hgains
  · rw [Contexts.setSys_of_ne p hQ]
    exact gains_refl (h.agrees Q)

/-- The letters of all contexts, when the trace of one has got none. -/
theorem setSys_letters {P : Party ι} {s' : System (NetPayload π)}
    (hnone : s'.trace.filterMap (L.letter? P) = (p.sys P).trace.filterMap (L.letter? P))
    (h : Carried L p) (Q : Party ι) : p.sent.filter (fun l => sender l.conn l.asks = Q) =
      ((p.setSys P s').sys Q).trace.filterMap (L.letter? Q) := by
  by_cases hQ : Q = P
  · rw [hQ, Contexts.setSys_self, hnone]
    exact h.letters P
  · rw [Contexts.setSys_of_ne p hQ]
    exact h.letters Q

/-- A step of one context, and what its framework actor sends. -/
theorem ctx_carried {P : Party ι} {a : Action (NetPayload π)} {s' : System (NetPayload π)}
    (hpath : (peers L).Path Machine.free p q)
    (hs : step (L.config P) (p.sys P) a = some s')
    (hq : q = (L.lettersUntil P (p.sys P) s').foldl (Contexts.post L) (p.setSys P s'))
    (h : Carried L p) : Carried L q := by
  have hposted : Posted L (p.setSys P s') (L.lettersUntil P (p.sys P) s') q := hq ▸ posts_posted _ _
  have hgains := setSys_gains h (gains_of_step hs (h.agrees P))
  have htrace : ∀ Q, (q.sys Q).trace = ((p.setSys P s').sys Q).trace := by
    intro Q
    rcases hposted.sys Q with hsys | hsys <;> rw [hsys]
    rfl
  have hsent : q.sent = p.sent ++ L.lettersUntil P (p.sys P) s' := hposted.sent
  refine carried_of hpath (fun Q => ?_) hsent (fun Q => ?_) hposted.wire
    (fun f hf => Or.inl (hposted.found ▸ hf)) (fun d hd => Or.inl (hposted.delivered ▸ hd))
    (fun n => ?_) h
  · rcases hposted.sys Q with hsys | hsys
    · rw [hsys]
      exact hgains Q
    · rw [hsys]
      exact gains_trans (hgains Q) (gains_crash (hgains Q).agrees)
  · rw [hsent, List.filter_append, h.letters, htrace]
    rcases step_grows hs (h.agrees P).registered with ⟨evs, hevs, _⟩
    have hnew : L.lettersUntil P (p.sys P) s' = evs.filterMap (L.letter? P) := by
      rw [PeerConfig.lettersUntil, hevs, List.drop_left]
    by_cases hQ : Q = P
    -- What a context sends is sent by it, and by no other.
    · have hall : (evs.filterMap (L.letter? P)).filter (fun l => sender l.conn l.asks = P) =
          evs.filterMap (L.letter? P) := by
        refine List.filter_eq_self.mpr fun l hl => ?_
        rcases List.mem_filterMap.mp hl with ⟨ev, _, hlev⟩
        exact decide_eq_true (letter_sender hlev)
      rw [hnew, hQ, Contexts.setSys_self, hevs, List.filterMap_append, hall]
    · have hnone : (evs.filterMap (L.letter? P)).filter (fun l => sender l.conn l.asks = Q) =
          [] := by
        refine List.filter_eq_nil_iff.mpr fun l hl => ?_
        rcases List.mem_filterMap.mp hl with ⟨ev, _, hlev⟩
        rw [decide_eq_true_eq, letter_sender hlev]
        exact fun heq => hQ heq.symm
      rw [hnew, hnone, List.append_nil, Contexts.setSys_of_ne p hQ]
  -- A step of a context only sends, so nothing but the wire can count.
  · have hcount : q.wire.countP (fun pk => pk.serial == n) ≤
        p.wire.countP (fun pk => pk.serial == n) +
          if p.sent.length ≤ n ∧ n < q.sent.length then 1 else 0 := hposted.count n
    have hfound : q.found = p.found := hposted.found
    have hdelivered : q.delivered = p.delivered := hposted.delivered
    unfold Contexts.uses
    rw [hfound, hdelivered]
    by_cases hn : p.sent.length ≤ n
    · refine Or.inr ⟨hn, ?_⟩
      split at hcount <;> omega
    · rw [if_neg fun hboth => hn hboth.1] at hcount
      exact Or.inl (by omega)

/-- What `on_new_message` comes to, up to the lookup. -/
theorem arrive_cases {k : Nat} {alive : Bool} (hs : p.arrive L k alive = some q) :
    ∃ pk, p.wire[k]? = some pk ∧
      (q = { p with wire := p.wire.eraseIdx k } ∨
        q = { p with wire := p.wire.eraseIdx k }.setSys (receiver pk.conn pk.asks)
          (p.sys (receiver pk.conn pk.asks)).crash ∨
        ∃ nm ctx addr, unpackReceived pk.message = some (some nm) ∧
          (p.sys (receiver pk.conn pk.asks)).contextObject (L.own (receiver pk.conn pk.asks)) =
            some ctx ∧
          (p.sys (receiver pk.conn pk.asks)).getAddress (stdString nm.name) = addr ∧
          addr.empty = false ∧
          q = { p with
            wire := p.wire.eraseIdx k
            found := p.found ++ [⟨pk.serial, receiver pk.conn pk.asks, ctx, addr,
              L.onNewMessage pk.conn pk.asks nm⟩] }) := by
  unfold Contexts.arrive at hs
  cases hk : p.wire[k]? with
  | none =>
      rw [hk] at hs
      exact absurd hs (by simp only [reduceCtorEq, not_false_eq_true])
  | some pk =>
      refine ⟨pk, rfl, ?_⟩
      simp only [hk, Option.ite_none_left_eq_some] at hs
      have hs := hs.2
      cases hunpack : unpackReceived pk.message with
      | none =>
          simp only [hunpack, Option.some.injEq] at hs
          exact Or.inr (Or.inl hs.symm)
      | some content =>
          cases content with
          | none =>
              simp only [hunpack, Option.some.injEq] at hs
              exact Or.inl hs.symm
          | some nm =>
              simp only [hunpack] at hs
              split at hs
              · rw [Option.some.injEq] at hs
                exact Or.inl hs.symm
              · rename_i ctx hctx
                rw [Option.ite_none_right_eq_some] at hctx hs
                have hs := hs.2
                split at hs
                · rw [Option.some.injEq] at hs
                  exact Or.inl hs.symm
                · rename_i haddr
                  rw [Option.some.injEq] at hs
                  exact Or.inr (Or.inr ⟨nm, ctx, _, rfl, hctx.2, rfl, Bool.not_eq_true _ ▸ haddr,
                    hs.symm⟩)

theorem arrive_carried {k : Nat} {alive : Bool} (hreach : (peers L).Reach Machine.free p)
    (hpath : (peers L).Path Machine.free p q) (hs : p.arrive L k alive = some q)
    (h : Carried L p) : Carried L q := by
  rcases arrive_cases hs with ⟨pk, hk, hcase⟩
  have herase : ∀ pk' ∈ p.wire.eraseIdx k, pk' ∈ p.wire := fun pk' hpk => List.mem_of_mem_eraseIdx hpk
  have hcount : ∀ n, (p.wire.eraseIdx k).countP (fun pk => pk.serial == n) +
      (pk.serial == n).toNat = p.wire.countP fun pk => pk.serial == n :=
    fun n => countP_eraseIdx hk _
  rcases hcase with rfl | rfl | ⟨nm, ctx, addr, hunpack, hctx, haddr, hsome, rfl⟩
  · -- Nothing comes of the message.
    refine carried_of hpath (fun P => gains_refl (h.agrees P)) (List.append_nil _).symm h.letters
      (fun pk' hpk => Or.inl (herase pk' hpk)) (fun f hf => Or.inl hf) (fun d hd => Or.inl hd)
      (fun n => Or.inl ?_) h
    have hcount := hcount n
    unfold Contexts.uses
    simp only
    omega
  · -- The message cannot be unpacked.
    have hletters := @setSys_letters ι π _ L p (receiver pk.conn pk.asks)
      (p.sys (receiver pk.conn pk.asks)).crash rfl h
    refine carried_of hpath (setSys_gains h (gains_crash (h.agrees _))) (List.append_nil _).symm
      hletters (fun pk' hpk => Or.inl (herase pk' hpk)) (fun f hf => Or.inl hf)
      (fun d hd => Or.inl hd) (fun n => Or.inl ?_) h
    have hcount := hcount n
    unfold Contexts.uses Contexts.setSys
    simp only
    omega
  · -- The name has an address.
    have hmem : pk ∈ p.wire := List.mem_of_getElem? hk
    have hagrees := h.agrees (receiver pk.conn pk.asks)
    rcases h.wire pk hmem with ⟨l, hl, hconn, hasks, hmsg⟩
    rcases contextObject_registered hagrees.registered hctx with ⟨huc, hown⟩
    have hnonempty : ((p.sys (receiver pk.conn pk.asks)).getAddress (stdString nm.name)).empty =
        false := by
      rw [haddr]
      exact hsome
    have haddress := registration_of_getAddress hagrees.registered hnonempty
    rw [haddr] at haddress
    refine carried_of hpath (fun P => gains_refl (h.agrees P)) (List.append_nil _).symm h.letters
      (fun pk' hpk => Or.inl (herase pk' hpk)) (fun f hf => ?_) (fun d hd => Or.inl hd)
      (fun n => Or.inl ?_) h
    · rcases List.mem_append.mp hf with hold | hnew
      · exact Or.inl hold
      · rw [List.mem_singleton.mp hnew]
        refine Or.inr ⟨huc, l, hl, by rw [hconn, hasks], hown, haddress, fun hfits => ?_⟩
        -- What fits is unpacked as it was packed.
        rcases unpack_getMessage hfits with ⟨nd, hnd, hback⟩
        rw [hmsg, Option.some.injEq] at hnd
        rw [← hnd, hunpack, Option.some.injEq, Option.some.injEq] at hback
        rw [hconn, hasks, ← hback]
        exact ⟨rfl, p, hreach, hpath, ⟨pk, hmem, rfl⟩, haddr, hsome⟩
    · have hcount := hcount n
      unfold Contexts.uses
      simp only [List.countP_append, List.countP_singleton]
      cases hn : pk.serial == n <;> rw [hn] at hcount <;>
        simp only [Bool.toNat_true, Bool.toNat_false, if_true, if_false, Bool.false_eq_true]
          at hcount ⊢ <;> omega

/-- What the send of `on_new_message` comes to: a push, or nothing. -/
theorem pushes_of_send {cfg : Config} {s s' : System (NetPayload π)} {ctx : UserContext}
    {addr : ActorAddress} {payload : NetPayload π}
    (hs : step cfg s (.userCall ctx (.sendEnvelope addr ⟨some payload, .null⟩)) = some s') :
    (s.pushesUntil s' = [] ∧ s'.trace = s.trace) ∨ ∃ m e, s.mboxes.lookup addr.id = some m ∧
      e.val = ⟨some payload, ctx.addr⟩ ∧ s.pushesUntil s' = [(m, e)] ∧
        s'.trace = s.trace ++ [.pushed m e none] := by
  rcases userCall_send hs with ⟨hsame, _⟩ | ⟨_, hnone⟩ | ⟨m, e, hm, he, hpush⟩
  · rw [hsame]
    refine Or.inl ⟨?_, rfl⟩
    rw [System.pushesUntil, List.drop_length]
    rfl
  · exact absurd hnone (by simp only [reduceCtorEq, not_false_eq_true])
  · have htrace : s'.trace = s.trace ++ [.pushed m e none] := by
      rw [hpush]
      rfl
    refine Or.inr ⟨m, e, hm, he, ?_, htrace⟩
    rw [System.pushesUntil, htrace, List.drop_left]
    rfl

theorem forward_carried {k : Nat} (hpath : (peers L).Path Machine.free p q)
    (hs : p.forward L k = some q) (h : Carried L p) : Carried L q := by
  unfold Contexts.forward at hs
  cases hk : p.found[k]? with
  | none =>
      rw [hk] at hs
      exact absurd hs (by simp only [reduceCtorEq, not_false_eq_true])
  | some f =>
      simp only [hk, Option.map_eq_some_iff] at hs
      rcases hs with ⟨s', hstep, rfl⟩
      have hagrees := h.agrees f.party
      have hgains := setSys_gains h (gains_of_step hstep hagrees)
      -- Whatever comes of it, the letter is not among the found ones any more.
      have hcount : ∀ n, (p.found.eraseIdx k).countP (fun f => f.serial == n) +
          (f.serial == n).toNat = p.found.countP fun f => f.serial == n :=
        fun n => countP_eraseIdx hk _
      rcases pushes_of_send hstep with ⟨hnone, htrace⟩ | ⟨m, e, hm, he, hpush, htrace⟩
      · -- The actor has gone, or the context is stopping.
        have hletters := @setSys_letters ι π _ L p f.party s' (by rw [htrace]) h
        refine carried_of hpath hgains (List.append_nil _).symm hletters (fun pk hpk => Or.inl hpk)
          (fun f' hf => Or.inl (List.mem_of_mem_eraseIdx hf)) (fun d hd => Or.inl ?_)
          (fun n => Or.inl ?_) h
        · simpa only [hnone, List.map_nil, List.append_nil] using hd
        · have hcount := hcount n
          unfold Contexts.uses Contexts.setSys
          simp only [hnone, List.map_nil, List.append_nil]
          omega
      · have hletters := @setSys_letters ι π _ L p f.party s' (by
          rw [htrace, List.filterMap_append]
          exact List.append_nil _) h
        have hf := List.mem_of_getElem? hk
        rcases live_of_mbox hagrees.registered.toFiled hm with ⟨_, r, _, hr, hrm⟩
        refine carried_of hpath hgains (List.append_nil _).symm hletters (fun pk hpk => Or.inl hpk)
          (fun f' hf => Or.inl (List.mem_of_mem_eraseIdx hf)) (fun d hd => ?_)
          (fun n => Or.inl ?_) h
        · simp only [hpush, List.map_cons, List.map_nil] at hd
          rcases List.mem_append.mp hd with hold | hnew
          · exact Or.inl hold
          · rw [List.mem_singleton.mp hnew]
            refine Or.inr ⟨⟨f.payload, by rw [he], ?_⟩, r,
              (hgains f.party).registrations r hr.mem, hrm, hr.id⟩
            rw [he]
            exact passed_mono (List.append_nil p.sent).symm (hgains f.party).registrations hpath
              (h.found f hf).2
        · have hcount := hcount n
          unfold Contexts.uses Contexts.setSys
          simp only [hpush, List.map_cons, List.map_nil, List.countP_append, List.countP_singleton]
          cases hn : f.serial == n <;> rw [hn] at hcount <;>
            simp only [Bool.toNat_true, Bool.toNat_false, if_true, if_false, Bool.false_eq_true]
              at hcount ⊢ <;> omega

/-- What is on its way stays behind its letter. -/
theorem step_carried {x : PeerAction ι π} (hreach : (peers L).Reach Machine.free p)
    (hs : peerStep L p x = some q) (h : Carried L p) : Carried L q := by
  have hpath : (peers L).Path Machine.free p q :=
    Machine.Path.tail x (Machine.Path.refl p) trivial hs
  cases x with
  | ctx P a =>
      simp only [peerStep, Option.ite_none_right_eq_some, Option.map_eq_some_iff] at hs
      rcases hs with ⟨_, s', hstep, hq⟩
      exact ctx_carried hpath hstep hq.symm h
  | arrive k alive => exact arrive_carried hreach hpath hs h
  | forward k => exact forward_carried hpath hs h

theorem carried_start : Carried L (peers (π := π) L).start := by
  have hnil : ∀ {α : Type} {P : α → Prop}, ∀ x ∈ ([] : List α), P x :=
    fun x hx => absurd hx List.not_mem_nil
  refine ⟨fun P => ?_, fun P => ?_, hnil, hnil, hnil, fun n => Nat.zero_le 1⟩
  · have hstart : (context (L.config P) (L.ctxName P)).Reach Machine.free
        (makeContext (π := NetPayload π) (L.config P) (L.ctxName P)) := Machine.Path.refl _
    exact reach_agrees hstart
  · refine (List.filterMap_eq_nil_iff.mpr fun ev hev => ?_).symm
    have hadds := makeContext_trace hev
    cases ev <;> first | rfl | exact absurd hadds Bool.false_ne_true

theorem reach_carried (h : (peers L).Reach Machine.free p) : Carried L p :=
  Machine.invariant_of ((peers L).Reach Machine.free) (Carried L) (fun _ hs => hs) carried_start
    (fun _ _ _ _ hs hreach _ hc => step_carried hreach hs hc) h

/-- Nothing that can go on is lost: a letter that fits becomes a packet, a
    packet whose name has an address is looked up, and what was looked up is
    pushed to a mailbox that is there. -/
structure Underway (L : PeerConfig ι) (p : Contexts ι π) : Prop where
  packed : ∀ P a q, peerStep L p (.ctx P a) = some q → ∀ n l, p.sent.length ≤ n →
    q.sent[n]? = some l → l.content.Fits L.sizeT → ∃ pk ∈ q.wire, pk.serial = n
  looked : ∀ (k : Nat) pk, p.wire[k]? = some pk → ∃ l, p.sent[pk.serial]? = some l ∧
    (l.content.Fits L.sizeT → ∀ P ctx addr, P = receiver l.conn l.asks →
      (p.sys P).fate = .running → (p.sys P).canShare = true →
      (p.sys P).contextObject (L.own P) = some ctx →
      (p.sys P).getAddress (stdString l.content.name) = addr → addr.empty = false →
      ∃ q, peerStep L p (.arrive k true) = some q ∧
        ⟨pk.serial, P, ctx, addr, L.onNewMessage l.conn l.asks l.content⟩ ∈ q.found)
  pushed : ∀ (k : Nat) f m, p.found[k]? = some f → (p.sys f.party).fate = .running →
    (p.sys f.party).canShare = true → (p.sys f.party).shutdown.begun = false →
    (p.sys f.party).mboxes.lookup f.addr.id = some m →
    ∃ q e, peerStep L p (.forward k) = some q ∧ ⟨f.serial, f.party, f.addr, m, e⟩ ∈ q.delivered

theorem underway_of_carried (h : Carried L p) : Underway L p where
  packed P a q hs n l hn hl hfits := by
    simp only [peerStep, Option.ite_none_right_eq_some, Option.map_eq_some_iff] at hs
    rcases hs with ⟨_, s', _, rfl⟩
    exact (posts_posted _ (p.setSys P s')).packed n l hn hl hfits
  looked k pk hk := by
    rcases h.wire pk (List.mem_of_getElem? hk) with ⟨l, hl, hconn, hasks, hmsg⟩
    refine ⟨l, hl, fun hfits P ctx addr hP hfate hshare hctx haddr hsome => ?_⟩
    rcases unpack_getMessage hfits with ⟨nd, hnd, hback⟩
    rw [hmsg, Option.some.injEq] at hnd
    rw [← hnd] at hback
    rw [hconn, hasks] at hP
    subst hP
    refine ⟨{ p with
      wire := p.wire.eraseIdx k
      found := p.found ++ [⟨pk.serial, receiver pk.conn pk.asks, ctx, addr,
        L.onNewMessage pk.conn pk.asks l.content⟩] }, ?_, ?_⟩
    -- Every test of `on_new_message` goes the way the hypotheses say.
    · simp only [peerStep, Contexts.arrive, hk, hfate, ne_eq, not_true_eq_false, if_false, hback,
        if_true, hctx, hshare, haddr, hsome, Bool.false_eq_true]
    · rw [hconn, hasks]
      exact List.mem_append_right _ (List.mem_singleton_self _)
  pushed k f m hk hfate hshare hbegun hm := by
    have hctx := (h.found f (List.mem_of_getElem? hk)).1
    -- The envelope is sent by the framework's actor, under its own address.
    let e : Stored (NetPayload π) := ⟨⟨some f.payload, f.ctx.addr⟩, rfl⟩
    have hstep : step (L.config f.party) (p.sys f.party)
        (.userCall f.ctx (.sendEnvelope f.addr ⟨some f.payload, .null⟩)) =
          some ((p.sys f.party).push m e none) := by
      simp only [step, hfate, if_true, hctx, userCall, UserContext.forward, hbegun,
        Bool.false_eq_true, if_false, UserCall.copied, Option.isSome_some, contextCall, hshare,
        System.sendEnvelope, hm, Envelope.copy?, dif_pos]
      rfl
    have hpush : (p.sys f.party).pushesUntil ((p.sys f.party).push m e none) = [(m, e)] := by
      rw [System.pushesUntil, System.push, List.drop_left]
      rfl
    refine ⟨{ p.setSys f.party ((p.sys f.party).push m e none) with
      found := p.found.eraseIdx k
      delivered := p.delivered ++ [⟨f.serial, f.party, f.addr, m, e⟩] }, e, ?_, ?_⟩
    · simp only [peerStep, Contexts.forward, hk, hstep, Option.map_some, hpush, List.map_cons,
        List.map_nil]
    · exact List.mem_append_right _ (List.mem_singleton_self _)

/-- A push went where `get_address` said: it answered with the address while the
    letter was on the wire, and the mailbox is that of the actor under its id. -/
structure Denotes (L : PeerConfig ι) (p : Contexts ι π) (d : Delivery ι π) (name : Bytes) :
    Prop where
  answered : Answered L p d.serial d.party name d.addr
  registered : ∃ r ∈ (p.sys d.party).registrations, r.mb = d.mb ∧
    r.descr.address.id = d.addr.id ∧ ((p.sys d.party).fewCalls → r.descr.address = d.addr)

/-- What is behind a push: the handler that was called, and the letter. -/
theorem letter_of_delivery (h : Carried L p) {d : Delivery ι π} (hd : d ∈ p.delivered) :
    ∃ l, p.sent[d.serial]? = some l ∧ d.party = receiver l.conn l.asks ∧
      (∃ a m e payload, a = L.own (sender l.conn l.asks) ∧
        Event.handleBegin a m e ∈ (p.sys (sender l.conn l.asks)).trace ∧
        e.val.payload = some payload ∧
        L.actionHandle (sender l.conn l.asks) payload = some (some l)) ∧
      (l.content.Fits L.sizeT → Denotes L p d l.content.name ∧
        ∃ r ∈ (p.sys d.party).registrations, r.descr.actor = L.own d.party ∧
          d.envelope.val = ⟨some (L.onNewMessage l.conn l.asks l.content), r.descr.address⟩) := by
  rcases h.delivered d hd with ⟨⟨payload, hpayload, l, hl, hparty, ⟨r, hr, hactor, hfrom⟩,
    ⟨r', hr', haddr⟩, hfits⟩, r'', hr'', hmb, hid⟩
  refine ⟨l, hl, hparty, ?_, fun hfit => ?_⟩
  -- A letter sent is a message handled, by the actor of its sender.
  · have hmem : l ∈ (p.sys (sender l.conn l.asks)).trace.filterMap
        (L.letter? (sender l.conn l.asks)) := by
      rw [← h.letters]
      exact List.mem_filter.mpr ⟨List.mem_of_getElem? hl, decide_eq_true rfl⟩
    rcases List.mem_filterMap.mp hmem with ⟨ev, hev, hlev⟩
    cases ev with
    | handleBegin a m e =>
        simp only [PeerConfig.letter?, Option.ite_none_right_eq_some, Option.join_eq_some_iff,
          Option.bind_eq_some_iff] at hlev
        rcases hlev with ⟨ha, x, hx, hhandle⟩
        exact ⟨a, m, e, x, ha, hev, hx, hhandle⟩
    | _ => exact absurd hlev (by simp only [PeerConfig.letter?, reduceCtorEq, not_false_eq_true])
  · rcases hfits hfit with ⟨hcontent, hanswered⟩
    refine ⟨⟨hanswered, r'', hr'', hmb, hid, fun hfew => ?_⟩, r, hr, hactor, ?_⟩
    -- Few calls, and so one registration for the id that was found.
    · have heq := registration_of_id (h.agrees d.party).unused hfew hr'' hr' (by rw [hid, haddr])
      rw [heq, haddr]
    · rw [hfrom, ← hcontent, ← hpayload]

/-- Requests and replies. A push in the listener's context is of a request that
    one client's connection actor was called with, and goes to the actor its
    name stands for there, with that client's id. A push in a client's context
    is of a reply the listener actor was called with for that client. Each is
    made once, and nothing that can go on is lost. -/
theorem requests_and_replies (h : (peers (π := π) L).Reach Machine.free p) :
    (∀ d ∈ p.delivered, d.party = .listener → ∃ i nm,
      (∃ m e, Event.handleBegin (L.own (.client i)) m e ∈ (p.sys (.client i)).trace ∧
        e.val.payload = some (.network nm)) ∧
      p.sent[d.serial]? = some ⟨i, true, nm⟩ ∧
      (nm.Fits L.sizeT → Denotes L p d nm.name ∧
        ∃ r ∈ (p.sys .listener).registrations, r.descr.actor = L.own .listener ∧
          d.envelope.val = ⟨some (.listener ⟨L.getId i, nm.name, nm.data⟩), r.descr.address⟩)) ∧
    (∀ d ∈ p.delivered, ∀ i, d.party = .client i → ∃ lm,
      (∃ m e, Event.handleBegin (L.own .listener) m e ∈ (p.sys .listener).trace ∧
        e.val.payload = some (.listener lm)) ∧
      L.getId i = lm.senderId ∧ p.sent[d.serial]? = some ⟨i, false, ⟨lm.name, lm.data⟩⟩ ∧
      (NetworkActorMessage.Fits L.sizeT ⟨lm.name, lm.data⟩ → Denotes L p d lm.name ∧
        ∃ r ∈ (p.sys (.client i)).registrations, r.descr.actor = L.own (.client i) ∧
          d.envelope.val = ⟨some (.network ⟨lm.name, lm.data⟩), r.descr.address⟩)) ∧
    (∀ P, p.sent.filter (fun l => sender l.conn l.asks = P) =
      (p.sys P).trace.filterMap (L.letter? P)) ∧
    (∀ n, p.delivered.countP (fun d => d.serial == n) ≤ 1) ∧
    Underway L p := by
  have hcarried := reach_carried h
  refine ⟨fun d hd hparty => ?_, fun d hd i hparty => ?_, hcarried.letters, fun n => ?_,
    underway_of_carried hcarried⟩
  · rcases letter_of_delivery hcarried hd with ⟨⟨i, asks, nm⟩, hl, hto, ⟨a, m, e, payload, ha, hev,
      he, hhandle⟩, hfits⟩
    rw [hparty] at hto hfits
    cases asks with
    | false => exact absurd hto (by simp [receiver])
    | true =>
        -- The connection actor of the client was called with this content.
        have hnetwork : payload = .network nm := by
          cases payload <;> simp only [sender, if_true, PeerConfig.actionHandle,
            PeerConfig.conActionHandle, Option.some.injEq, Letter.mk.injEq, true_and,
            reduceCtorEq] at hhandle
          rw [hhandle]
        rw [ha] at hev
        exact ⟨i, nm, ⟨m, e, hev, by rw [he, hnetwork]⟩, hl, hfits⟩
  · rcases letter_of_delivery hcarried hd with ⟨⟨j, asks, nm⟩, hl, hto, ⟨a, m, e, payload, ha, hev,
      he, hhandle⟩, hfits⟩
    rw [hparty] at hto hfits
    cases asks with
    | true => exact absurd hto (by simp [receiver])
    | false =>
        have hj : i = j := by simpa [receiver] using hto
        subst hj
        -- The listener actor was called with a message for this client.
        have hlistener : ∃ lm, payload = .listener lm ∧ L.getId i = lm.senderId ∧
            nm = ⟨lm.name, lm.data⟩ := by
          cases payload <;> simp only [sender, Bool.false_eq_true, if_false,
            PeerConfig.actionHandle, PeerConfig.lstActionHandle, Option.some.injEq,
            Option.map_eq_some_iff, Letter.mk.injEq, true_and, reduceCtorEq] at hhandle
          rename_i lm
          rcases hhandle with ⟨k, hk, rfl, hnm⟩
          exact ⟨lm, rfl, (L.find_iff _ _).mp hk, hnm.symm⟩
        rcases hlistener with ⟨lm, hlm, hid, rfl⟩
        rw [ha] at hev
        exact ⟨lm, ⟨m, e, hev, by rw [he, hlm]⟩, hid, hl, hfits⟩
  · have honce := hcarried.once n
    unfold Contexts.uses at honce
    omega

end Carried

/-- A listener and two clients, in contexts of one user thread each. The
    framework's actor is object 4 in every one of them. -/
def twoClients : PeerConfig Bool where
  config _ := .networked
  ctxName _ := "ctx"
  own _ := 4
  sizeT := 32
  getId i := if i then 1 else 0
  find s := if s = 0 then some false else if s = 1 then some true else none
  find_iff s i := by
    by_cases h0 : s = 0 <;> by_cases h1 : s = 1 <;> cases i <;> simp_all [eq_comm]

/-- "/root/usr/s". -/
def serviceName : Bytes := [47, 114, 111, 111, 116, 47, 117, 115, 114, 47, 115]

/-- A framework actor and an actor of that name are registered. -/
def setUpRun : List (Action (NetPayload Nat)) :=
  register "c" netRoot 4 ++ register "s" ⟨⟨2⟩, "/root/usr"⟩ 5 ++ runStarts 6

/-- The framework actor is sent a message and handles it. -/
def ownRun (m : NetPayload Nat) : List (Action (NetPayload Nat)) :=
  [.call (.sendEnvelope ⟨⟨5⟩, ""⟩ ⟨some m, .null⟩)] ++ scanAndLock ⟨5⟩ ++
    [.worker .recheck, .worker .post, .pick, .task 0 .entry, .task 0 .tryPop, .task 0 .callHandler,
      .task 0 .handlerReturn]

/-- Both clients ask, the second request overtakes the first, and the second
    client gets a reply. -/
def twoClientsRun : List (PeerAction Bool Nat) :=
  setUpRun.map (.ctx .listener) ++
    (setUpRun ++ ownRun (.network ⟨serviceName, [7]⟩)).map (.ctx (.client false)) ++
    (setUpRun ++ ownRun (.network ⟨serviceName, [9]⟩)).map (.ctx (.client true)) ++
    [.arrive 1 true, .arrive 0 true, .forward 0, .forward 0] ++
    (ownRun (.listener ⟨1, serviceName, [8]⟩)).map (.ctx .listener) ++
    [.arrive 0 true, .forward 0]

theorem requests_and_replies_twoClients : ∃ p : Contexts Bool Nat,
    (peers twoClients).Reach Machine.free p ∧
      p.delivered.map (fun d => (d.party, d.envelope.val)) =
        [(.listener, ⟨some (.listener ⟨1, serviceName, [9]⟩), ⟨⟨5⟩, "/root/net/c"⟩⟩),
          (.listener, ⟨some (.listener ⟨0, serviceName, [7]⟩), ⟨⟨5⟩, "/root/net/c"⟩⟩),
          (.client true, ⟨some (.network ⟨serviceName, [8]⟩), ⟨⟨5⟩, "/root/net/c"⟩⟩)] ∧
      (∀ d ∈ p.delivered, d.party = .listener → ∃ i nm, p.sent[d.serial]? = some ⟨i, true, nm⟩) ∧
      Underway twoClients p := by
  have hreach : (peers (π := Nat) twoClients).Reach Machine.free
      ((peers twoClients).after twoClientsRun) := Machine.reach_after twoClientsRun
  refine ⟨_, hreach, by decide +kernel, fun d hd hparty => ?_,
    (requests_and_replies hreach).2.2.2.2⟩
  rcases (requests_and_replies hreach).1 d hd hparty with ⟨i, nm, _, hl, _⟩
  exact ⟨i, nm, hl⟩

end Yaaf
