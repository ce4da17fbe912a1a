-- SUMMARY: A request that the middlewares let through: it is answered, and leaves the stores, as the router alone would.
import Jiffy.Http.Serving

/-!
# Requests let through

The app with all its middlewares against the parser of bodies and the router
alone, which `HttpApp.handle` is.
-/

namespace Jiffy

open Js Async

namespace HttpApp

variable {σ ι : Type} {A : Adapter ports Failure σ ι} {config : Config} {i : Surroundings ι}
  {x y : Exchange} {ms : List AppMiddleware} {s t : Process σ × History} {w : σ} {response : HttpResponse}

/-- A run answers with `response`, and leaves `w` behind the ports. -/
structure Answers (A : Adapter ports Failure σ ι) (config : Config) (i : Surroundings ι)
    (p : Proc httpCalls Failure Unit) (s : Process σ × History) (w : σ) (response : HttpResponse) : Prop where
  resolves : ((system A config).logged.run i p s).1 = .ok ()
  leaves : ((system A config).logged.run i p s).2.1.ports = w
  answered : responses ((system A config).logged.run i p s).2.2 = responses s.2 ++ [response]

/-- What a run came to, known in full. -/
theorem Answers.of_run {p q : Proc httpCalls Failure Unit}
    (hrun : (system A config).logged.run i p s = (system A config).logged.run i q t)
    (hlog : responses t.2 = responses s.2) (h : Answers A config i q t w response) :
    Answers A config i p s w response where
  resolves := hrun ▸ h.resolves
  leaves := hrun ▸ h.leaves
  answered := by rw [hrun, h.answered, hlog]

/-- A middleware that fails. -/
theorem Answers.failed {m : AppMiddleware} {e : Failure}
    (hm : (system A config).logged.run i (m x) s = (.error e, t)) (hlog : responses t.2 = responses s.2)
    (h : Answers A config i (onError e x) t w response) :
    Answers A config i (chain onError (m :: ms) x) s w response := by
  refine .of_run ?_ hlog h
  rw [Adapter.run_chain_cons, hm]

section Router

variable {κ : Type} {find : HttpRequest → Option String × Except Failure (Option κ)}
  {handler : κ → Exchange → Proc httpCalls Failure Unit}

/-- A router whose handler comes to an end: it has answered, or it has failed. -/
theorem run_routed {k : κ} (hfind : (find x.request).2 = .ok (some k)) :
    (system A config).logged.run i (chain onError (router find handler ++ ms) x) s =
      match (system A config).logged.run i (handler k (x.note (find x.request).1)) s with
      | (.ok _, t) => (.ok (), t)
      | (.error e, t) =>
        (system A config).logged.run i (onError e (x.note (find x.request).1)) t := by
  unfold router
  rw [List.cons_append, Adapter.run_chain_cons]
  simp only [noteRoute, Proc.pure_eq_ret, Adapter.run_ret]
  rw [List.cons_append, Adapter.run_chain_cons]
  unfold runRoute
  rw [show (x.note (find x.request).1).request = x.request from rfl, hfind]
  simp only [Proc.ofExcept_ok, Proc.bind_eq_bind, Proc.ret_bind, Adapter.run_bind]
  cases (system A config).logged.run i (handler k (x.note (find x.request).1)) s with
  | mk r t => cases r <;> rfl

theorem Answers.routed {k : κ} (hfind : (find x.request).2 = .ok (some k))
    (h : Answers A config i (handler k (x.note (find x.request).1)) s w response) :
    Answers A config i (chain onError (router find handler ++ ms) x) s w response := by
  refine .of_run (t := s) ?_ rfl h
  rw [run_routed hfind]
  have hresolves := h.resolves
  generalize (system A config).logged.run i (handler k (x.note (find x.request).1)) s = outcome at hresolves
  obtain ⟨r, t⟩ := outcome
  cases hresolves
  rfl

end Router

/-- Counting a message that was sent touches neither the ports nor the responses. -/
theorem Answers.published {endpoint : Endpoint} {body : ResponseBody} {p : Proc httpCalls Failure Unit}
    (h : ∀ t, t.1.ports = s.1.ports → responses t.2 = responses s.2 → Answers A config i p t w response) :
    Answers A config i ((countPublished endpoint body).bind fun _ => p) s w response := by
  obtain ⟨s, log⟩ := s
  unfold countPublished
  split
  · have hlog : responses (log ++ [⟨.published, .ok ()⟩]) = responses log :=
      (responses_append _ _).trans (List.append_nil _)
    exact .of_run (t := ({ s with messagesPublishedTotal := s.messagesPublishedTotal + 1 }, _)) rfl hlog
      (h _ rfl hlog)
  · exact .of_run (t := (s, log)) rfl rfl (h _ rfl rfl)

end HttpApp

end Jiffy
