import AtlasNative.SubscriptionRefresh
import AtlasNative.SubscriptionSchedule

/-!
# The stored ETag over a run

Refreshes and iterations of the sender follow one another in any order. The stored ETag
names the version of the stored subscriptions as long as every reply with an ETag either
replaces the subscriptions or repeats the ETag of the stored ones.
-/

namespace AtlasNative

open ExceptRuns
set_option autoImplicit false

/-- What the two threads of the manager do. -/
inductive ManagerEvent where
  | refresh (underlying : ℤ) (reply : Transfer)
  | round (run : ℕ) (underlying : ℤ)

def ManagerEvent.reply? : ManagerEvent → Option Transfer
  | refresh _ reply => some reply
  | round _ _ => none

section Run
variable (p : Platform) (fuel : ℕ) (rt : Runtime) (config : Config)

def SubscriptionManager.step (m : SubscriptionManager) :
    ManagerEvent → Except Fault SubscriptionManager
  | .refresh underlying reply => do
    let r ← m.refresh_subscriptions p fuel underlying reply
    return r.manager
  | .round run underlying => .ok (m.main_sender_round rt config run underlying).1

def runManager (m : SubscriptionManager) (events : List ManagerEvent) :
    Except Fault SubscriptionManager :=
  events.foldlM (SubscriptionManager.step p fuel rt config) m

/-- A 200 reply with this ETag, whose body parses to these subscriptions. -/
def Delivers (etag : String) (subs : ParsedSubscriptions) : Transfer → Prop
  | .failed => False
  | .completed status headers body =>
    httpCode status = 200 ∧ (headerInfo headers).etag = etag ∧
      ∃ text, Decoded p.zlib headers body text ∧
        ParseSubscriptions p.reader p.ndebug text = .ok subs

/-- A stored ETag came with the stored subscriptions. -/
def EtagDescribes (replies : List Transfer) (m : SubscriptionManager) : Prop :=
  m.current_etag ≠ "" → ∃ reply ∈ replies, Delivers p m.current_etag m.subscriptions_ reply

/-- An ETag comes with a body that can be inflated and parsed, or it is the stored one and
the subscriptions stay as they are. -/
def Consistent (m : SubscriptionManager) : ManagerEvent → Prop
  | .refresh _ (.completed status headers body) =>
    (headerInfo headers).etag = "" ∨
      if httpCode status = 200 then
        ∃ text, Decoded p.zlib headers body text ∧
          (ParseSubscriptions p.reader p.ndebug text = .error .exception →
            (headerInfo headers).etag = m.current_etag)
      else (headerInfo headers).etag = m.current_etag
  | _ => True

theorem EtagDescribes.mono {replies replies' : List Transfer} {m : SubscriptionManager}
    (h : EtagDescribes p replies m) (hsub : replies ⊆ replies') : EtagDescribes p replies' m := by
  intro hetag
  obtain ⟨reply, hmem, hdelivers⟩ := h hetag
  exact ⟨reply, hsub hmem, hdelivers⟩

theorem EtagDescribes.congr {replies : List Transfer} {m m' : SubscriptionManager}
    (h : EtagDescribes p replies m) (hetag : m'.current_etag = m.current_etag)
    (hsubs : m'.subscriptions_ = m.subscriptions_) : EtagDescribes p replies m' := by
  unfold EtagDescribes
  rw [hetag, hsubs]
  exact h

theorem main_sender_round_keeps (m : SubscriptionManager) (run : ℕ) (underlying : ℤ) :
    (m.main_sender_round rt config run underlying).1.current_etag = m.current_etag ∧
      (m.main_sender_round rt config run underlying).1.subscriptions_ = m.subscriptions_ := by
  unfold SubscriptionManager.main_sender_round SubscriptionManager.sendSubs
    SubscriptionManager.sendMain
  constructor
  · dsimp only
    split <;> split <;> rfl
  · dsimp only
    split <;> split <;> rfl

theorem EtagDescribes.refresh {replies : List Transfer} {m : SubscriptionManager}
    {underlying : ℤ} {reply : Transfer} {r : Refreshed} (h : EtagDescribes p replies m)
    (hconsistent : Consistent p m (.refresh underlying reply))
    (hr : m.refresh_subscriptions p fuel underlying reply = .ok r) :
    EtagDescribes p (replies ++ [reply]) r.manager := by
  have hbefore := h.mono p (List.subset_append_left replies [reply])
  cases refresh_cases p fuel hr with
  | failed hetag hsubs => exact hbefore.congr p hetag hsubs
  | parsed hcode hget hsubs hetag _ =>
    intro hne
    rcases hconsistent with hempty | hbody
    · exact absurd (hetag.trans hempty) hne
    · rw [if_pos hcode] at hbody
      obtain ⟨text, hdecoded, _⟩ := hbody
      rw [payload_of_decoded p.zlib hget hdecoded] at hsubs
      exact ⟨_, List.mem_append_right replies (List.mem_singleton_self _),
        hcode, hetag.symm, text, hdecoded, hsubs⟩
  | thrown hcode hget hexception hsubs hetag _ =>
    rcases hconsistent with hempty | hbody
    · exact fun hne => absurd (hetag.trans hempty) hne
    · rw [if_pos hcode] at hbody
      obtain ⟨text, hdecoded, hstored⟩ := hbody
      rw [payload_of_decoded p.zlib hget hdecoded] at hexception
      exact hbefore.congr p (hetag.trans (hstored hexception)) hsubs
  | other hcode hsubs hetag =>
    rcases hconsistent with hempty | hstored
    · exact fun hne => absurd (hetag.trans hempty) hne
    · rw [if_neg hcode] at hstored
      exact hbefore.congr p (hetag.trans hstored) hsubs

theorem EtagDescribes.step {events : List ManagerEvent} {m m' : SubscriptionManager}
    {e : ManagerEvent} (h : EtagDescribes p (events.filterMap ManagerEvent.reply?) m)
    (hconsistent : Consistent p m e) (hstep : m.step p fuel rt config e = .ok m') :
    EtagDescribes p ((events ++ [e]).filterMap ManagerEvent.reply?) m' := by
  rw [List.filterMap_append]
  cases e with
  | refresh underlying reply =>
    obtain ⟨r, hr, hm'⟩ := bind_eq_ok.mp hstep
    exact Except.ok.inj hm' ▸ h.refresh p fuel hconsistent hr
  | round run underlying =>
    obtain ⟨hetag, hsubs⟩ := main_sender_round_keeps rt config m run underlying
    have hkept := h.mono p (List.subset_append_left _ [])
    exact Except.ok.inj hstep ▸ hkept.congr p hetag hsubs

/-- In a run whose events are all consistent with the state they meet, the stored ETag
describes the stored subscriptions in every state that is reached. -/
theorem etag_describes_subscriptions (now : ℤ) (events : List ManagerEvent)
    (hconsistent : ∀ before e after m, events = before ++ e :: after →
      runManager p fuel rt config (.create now) before = .ok m → Consistent p m e) :
    ∀ before after m, events = before ++ after →
      runManager p fuel rt config (.create now) before = .ok m →
      EtagDescribes p (before.filterMap ManagerEvent.reply?) m := by
  intro before after m hevents hrun
  refine foldlM_history (P := fun done m =>
    EtagDescribes p (done.filterMap ManagerEvent.reply?) m) ?_ ?_ hrun
  · exact fun hne => absurd rfl hne
  · intro done e rest t t' hbefore hdone ht hstep
    have hsplit : events = done ++ e :: (rest ++ after) := by
      rw [hevents, hbefore, List.append_assoc, List.cons_append]
    exact ht.step p fuel rt config (hconsistent done e _ t hsplit hdone) hstep

/-- The condition is sharp: a reply that breaks it with an ETag that is new leaves the ETag
of a version whose subscriptions are not stored. -/
theorem not_etagDescribes_of_inconsistent {replies : List Transfer} {m : SubscriptionManager}
    {underlying status : ℤ} {headers : List String} {body : String} {r : Refreshed}
    (hnew : ∀ subs, ∀ reply ∈ replies, ¬ Delivers p (headerInfo headers).etag subs reply)
    (hinconsistent : ¬ Consistent p m (.refresh underlying (.completed status headers body)))
    (hr : m.refresh_subscriptions p fuel underlying (.completed status headers body) = .ok r) :
    ¬ EtagDescribes p (replies ++ [.completed status headers body]) r.manager := by
  obtain ⟨hne, hbody⟩ := not_or.mp hinconsistent
  have hetag : r.manager.current_etag = (headerInfo headers).etag := by
    cases refresh_cases p fuel hr with
    | parsed _ _ _ hetag _ => exact hetag
    | thrown _ _ _ _ hetag _ => exact hetag
    | other _ _ hetag => exact hetag
  intro h
  obtain ⟨reply, hmem, hdelivers⟩ := h (hetag ▸ hne)
  rw [hetag] at hdelivers
  rcases List.mem_append.mp hmem with hold | hlast
  · exact hnew _ reply hold hdelivers
  · rw [List.mem_singleton.mp hlast] at hdelivers
    obtain ⟨hcode, -, text, hdecoded, hparse⟩ := hdelivers
    rw [if_pos hcode] at hbody
    refine hbody ⟨text, hdecoded, fun hexception => ?_⟩
    exact absurd (hexception.symm.trans hparse) nofun

end Run

/-- Libraries that parse a document with one subscription. -/
def parsing : Platform where
  zlib := rejecting.zlib
  reader :=
    { Parse := fun s => if s = "" then none else some (.object [("expressions", .array [.object
        [("id", .string "id"), ("frequency", .integer 5000), ("expression", .string ":true,:all")]])])
      Parse_empty := rfl }
  ndebug := false

def oneSubscription : String :=
  "\x7b\"expressions\":[\x7b\"id\":\"id\",\"frequency\":5000,\"expression\":\":true,:all\"\x7d]\x7d"

def noMetrics : Config := ⟨false, true, ∅, []⟩

def fetch : ManagerEvent := .refresh 0 (.completed 200 ["Etag: v1\x0d\x0a"] oneSubscription)

def confirm : ManagerEvent := .refresh 10000 (.completed 304 ["Etag: v1\x0d\x0a"] "")

def fetched : SubscriptionManager :=
  { SubscriptionManager.create 0 with
    current_etag := "v1"
    subscriptions_ := Function.update (fun _ => []) (SubscriptionManager.sub_idx 5000)
      [⟨"id", 5000, ":true,:all"⟩] }

theorem runManager_fetch :
    runManager parsing 1 plainRuntime noMetrics (.create 0) [fetch] = .ok fetched := rfl

theorem etag_describes_after_confirm :
    EtagDescribes parsing ([fetch, confirm].filterMap ManagerEvent.reply?) fetched := by
  refine etag_describes_subscriptions parsing 1 plainRuntime noMetrics 0 [fetch, confirm] ?_
    [fetch, confirm] [] fetched rfl rfl
  intro before e after m hevents hrun
  match before, hevents with
  | [], hevents =>
    obtain rfl : fetch = e := (List.cons.inj hevents).1
    refine Or.inr ?_
    rw [if_pos (by decide)]
    exact ⟨oneSubscription, rfl, fun h => absurd h nofun⟩
  | [_], hevents =>
    obtain ⟨hfetch, hevents⟩ := List.cons.inj hevents
    obtain rfl : confirm = e := (List.cons.inj hevents).1
    rw [← hfetch, runManager_fetch] at hrun
    rw [← Except.ok.inj hrun]
    exact Or.inr rfl
  | _ :: _ :: rest, hevents => simp at hevents

def serverError : ManagerEvent := .refresh 0 (.completed 500 ["Etag: v2\x0d\x0a"] "")

def unchanged : ManagerEvent := .refresh 10000 (.completed 304 ["Etag: v2\x0d\x0a"] "")

theorem etag_of_error_describes_nothing :
    ¬ ∀ (p : Platform) (fuel : ℕ) (rt : Runtime) (config : Config) (now : ℤ)
        (events : List ManagerEvent) (m : SubscriptionManager),
      runManager p fuel rt config (.create now) events = .ok m →
        EtagDescribes p (events.filterMap ManagerEvent.reply?) m := by
  intro h
  obtain ⟨reply, hmem, hdelivers⟩ := h parsing 1 plainRuntime noMetrics 0
    [serverError, unchanged] _ rfl (by decide)
  rcases List.mem_pair.mp hmem with rfl | rfl
  · exact absurd hdelivers.1 (by decide)
  · exact absurd hdelivers.1 (by decide)

end AtlasNative
