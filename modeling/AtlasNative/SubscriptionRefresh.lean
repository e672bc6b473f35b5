import AtlasNative.SubscriptionPayload

/-!
# Refreshing the subscriptions

A refresh gets the subscriptions of the endpoint unless they still have the ETag of the
stored ones. The ETag is stored for every reply that comes in, the subscriptions only for
a status of 200, and a payload that is no JSON object replaces them by nothing.
-/

namespace AtlasNative

open ExceptRuns
set_option autoImplicit false

/-- The libraries that the code is linked to, and whether it is built with `NDEBUG`. -/
structure Platform where
  zlib : Zlib
  reader : JsonReader
  ndebug : Bool

/-- `registry_->counter(id)->Increment()`, after which the reference is gone. -/
def AtlasRegistry.increment (reg : AtlasRegistry) (now : ℤ) (id : Id) : AtlasRegistry :=
  match reg.counter now id with
  | (reg, some counter) => (reg.Add counter now 1).release counter
  | (reg, none) => reg

def refreshSubsErrors (error : String) : Id :=
  ⟨intern_str "atlas.client.refreshSubsErrors", Tags.of [("error", error)]⟩

structure Refreshed where
  manager : SubscriptionManager
  incremented : List Id

namespace SubscriptionManager

def countError (m : SubscriptionManager) (now : ℤ) (error : String) : Refreshed :=
  ⟨{ m with registry_ := m.registry_.increment now (refreshSubsErrors error) },
    [refreshSubsErrors error]⟩

def refresh_subscriptions (p : Platform) (fuel : ℕ) (underlying : ℤ) (reply : Transfer)
    (m : SubscriptionManager) : Except Fault Refreshed := do
  let (http_res, etag, subs_str) ← conditional_get p.zlib fuel reply m.current_etag
  let m := { m with current_etag := etag }
  let now := m.WallTime underlying
  if http_res = 200 then
    match ParseSubscriptions p.reader p.ndebug subs_str with
    | .ok subscriptions => return ⟨{ m with subscriptions_ := subscriptions }, []⟩
    | .error .exception => return m.countError now "json"
    | .error fault => .error fault
  else if http_res = 304 then return ⟨m, []⟩
  else return m.countError now "http"

end SubscriptionManager

section Refresh
variable (p : Platform) (fuel : ℕ)

/-- What a refresh can do to the ETag, the subscriptions and the counters. -/
inductive Refreshes (m : SubscriptionManager) : Transfer → Refreshed → Prop where
  | failed {r : Refreshed} (etag : r.manager.current_etag = m.current_etag)
      (subs : r.manager.subscriptions_ = m.subscriptions_) : Refreshes m .failed r
  | parsed {status : ℤ} {headers : List String} {body text : String} {r : Refreshed}
      (code : httpCode status = 200) (get : payload p.zlib fuel headers body = .ok text)
      (subs : ParseSubscriptions p.reader p.ndebug text = .ok r.manager.subscriptions_)
      (etag : r.manager.current_etag = (headerInfo headers).etag)
      (counters : r.incremented = []) : Refreshes m (.completed status headers body) r
  | thrown {status : ℤ} {headers : List String} {body text : String} {r : Refreshed}
      (code : httpCode status = 200) (get : payload p.zlib fuel headers body = .ok text)
      (exception : ParseSubscriptions p.reader p.ndebug text = .error .exception)
      (subs : r.manager.subscriptions_ = m.subscriptions_)
      (etag : r.manager.current_etag = (headerInfo headers).etag)
      (counters : r.incremented = [refreshSubsErrors "json"]) :
      Refreshes m (.completed status headers body) r
  | other {status : ℤ} {headers : List String} {body : String} {r : Refreshed}
      (code : httpCode status ≠ 200) (subs : r.manager.subscriptions_ = m.subscriptions_)
      (etag : r.manager.current_etag = (headerInfo headers).etag) :
      Refreshes m (.completed status headers body) r

theorem refresh_cases {m : SubscriptionManager} {underlying : ℤ} {reply : Transfer}
    {r : Refreshed} (h : m.refresh_subscriptions p fuel underlying reply = .ok r) :
    Refreshes p fuel m reply r := by
  obtain ⟨⟨http_res, etag, subs_str⟩, hget, h⟩ := bind_eq_ok.mp h
  cases reply with
  | failed =>
    obtain ⟨rfl, rfl, rfl⟩ : 400 = http_res ∧ m.current_etag = etag ∧ "" = subs_str := by
      simpa using Except.ok.inj hget
    have hr := Except.ok.inj h
    exact hr ▸ .failed rfl rfl
  | completed status headers body =>
    obtain ⟨rfl, rfl, hpayload⟩ := conditional_get_completed p.zlib hget
    by_cases hcode : httpCode status = 200
    · have hstatus : status ≠ 304 := by
        rintro rfl
        exact absurd hcode (by decide)
      simp only [if_pos hcode] at h
      split at h
      · have hr := Except.ok.inj h
        exact hr ▸ .parsed hcode (hpayload hstatus) ‹_› rfl rfl
      · have hr := Except.ok.inj h
        exact hr ▸ .thrown hcode (hpayload hstatus) ‹_› rfl rfl rfl
      · exact absurd h nofun
    · simp only [if_neg hcode] at h
      split at h
      · have hr := Except.ok.inj h
        exact hr ▸ .other hcode rfl rfl
      · have hr := Except.ok.inj h
        exact hr ▸ .other hcode rfl rfl

/-- The body of a reply is a JSON object with an `expressions` array. A compressed body that is
cut off behind this text counts, as `inflate_string` does not see that it is. -/
def WellFormedBody (headers : List String) (body : String) : Prop :=
  ∃ text, Decoded p.zlib headers body text ∧ WellFormedPayload p.reader text

/-- The refresh returns with the subscriptions as they were, and counts an error in the
payload. -/
def KeepsSubscriptions (m : SubscriptionManager) (underlying : ℤ) (reply : Transfer) : Prop :=
  ∃ fuel r, m.refresh_subscriptions p fuel underlying reply = .ok r ∧
    r.manager.subscriptions_ = m.subscriptions_ ∧ refreshSubsErrors "json" ∈ r.incremented

theorem ParseSubscriptions_of_bad_body {headers : List String} {body text : String}
    (hbad : ¬ WellFormedBody p headers body) (hget : payload p.zlib fuel headers body = .ok text) :
    ParseSubscriptions p.reader p.ndebug text = .ok (fun _ => []) ∨
      ParseSubscriptions p.reader p.ndebug text = .error .assertion ∨
      ParseSubscriptions p.reader p.ndebug text = .error .undefined := by
  rcases payload_cases p.zlib hget with hdecoded | ⟨-, rfl⟩
  · exact ParseSubscriptions_of_not_wellFormed p.reader p.ndebug
      fun hwell => hbad ⟨text, hdecoded, hwell⟩
  · exact Or.inl (ParseSubscriptions_empty p.reader p.ndebug)

/-- A bad payload that does not end the process replaces the subscriptions by nothing, and
no error is counted. -/
theorem refresh_bad_body {m : SubscriptionManager} {underlying status : ℤ}
    {headers : List String} {body : String} {r : Refreshed}
    (hbad : ¬ WellFormedBody p headers body) (hcode : httpCode status = 200)
    (h : m.refresh_subscriptions p fuel underlying (.completed status headers body) = .ok r) :
    r.manager.subscriptions_ = (fun _ => []) ∧ r.incremented = [] := by
  cases refresh_cases p fuel h with
  | parsed _ hget hsubs _ hcounters =>
    refine ⟨?_, hcounters⟩
    rcases ParseSubscriptions_of_bad_body p fuel hbad hget with hparse | hparse | hparse
    · exact Except.ok.inj (hsubs.symm.trans hparse)
    · exact absurd (hsubs.symm.trans hparse) nofun
    · exact absurd (hsubs.symm.trans hparse) nofun
  | thrown _ hget hexception =>
    rcases ParseSubscriptions_of_bad_body p fuel hbad hget with hparse | hparse | hparse
    · exact absurd (hexception.symm.trans hparse) nofun
    · exact absurd (hexception.symm.trans hparse) nofun
    · exact absurd (hexception.symm.trans hparse) nofun
  | other hne => exact absurd hcode hne

/-- No bad payload is handled as an error, whatever the state. -/
theorem not_keepsSubscriptions_of_bad_body (m : SubscriptionManager) (underlying : ℤ)
    (headers : List String) (body : String) (hbad : ¬ WellFormedBody p headers body) :
    ¬ KeepsSubscriptions p m underlying (.completed 200 headers body) := by
  intro h
  rcases h with ⟨fuel, r, hr, -, hcounted⟩
  have hnone := (refresh_bad_body p fuel hbad rfl hr).2
  rw [hnone] at hcounted
  exact absurd hcounted List.not_mem_nil

end Refresh

def rejecting : Platform where
  zlib :=
    { Stream := Unit
      inflateInit2 := (.Z_OK, ())
      inflate := fun _ next_in _ => ⟨.Z_DATA_ERROR, (), [], next_in⟩ }
  reader := ⟨fun _ => none, rfl⟩
  ndebug := false

def subscribed : SubscriptionManager :=
  { SubscriptionManager.create 0 with
    subscriptions_ := Function.update (fun _ => []) (SubscriptionManager.sub_idx 5000)
      [⟨"id", 5000, ":true,:count"⟩] }

theorem not_wellFormedBody_rejecting (headers : List String) (body : String) :
    ¬ WellFormedBody rejecting headers body := by
  intro h
  rcases h with ⟨text, -, members, elements, hobject, -⟩
  exact absurd hobject nofun

theorem not_keepsSubscriptions_of_truncated :
    ¬ KeepsSubscriptions rejecting subscribed 0
      (.completed 200 [] "\x7b\"expressions\":[") :=
  not_keepsSubscriptions_of_bad_body rejecting subscribed 0 [] _
    (not_wellFormedBody_rejecting [] _)

/-- A truncated document loses the subscription without an error. -/
theorem truncated_payload_not_kept :
    ¬ ∀ (p : Platform) (m : SubscriptionManager) (underlying : ℤ) (headers : List String)
        (body : String), ¬ WellFormedBody p headers body →
      KeepsSubscriptions p m underlying (.completed 200 headers body) := by
  intro h
  obtain ⟨fuel, r, hr, hkept, -⟩ := h rejecting subscribed 0 [] "\x7b\"expressions\":["
    (not_wellFormedBody_rejecting [] _)
  have hempty : r.manager.subscriptions_ = fun _ => [] := by
    rw [← Except.ok.inj hr]
  rw [hempty] at hkept
  exact absurd (congrFun hkept (SubscriptionManager.sub_idx 5000)) nofun

end AtlasNative
