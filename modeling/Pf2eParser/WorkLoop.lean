import Pf2eParser.Dispatch

/-!
# One work pass

`work_once` of `lib.rs`: take the oldest eligible route, claim it, read the request behind it,
perform it, and complete the claim.
-/

namespace Pf2eParser

open Text Interaction

/-- The outcome of a work pass that met no error. -/
inductive WorkOutcome where
  | nothingEligible
  | claimLost (routeId : Str)
  | requestUnavailable (routeId : Str)
  | lostBeforeCompletion (routeId claimId : Str)
  | completed (routeId : Str) (outcome : DispatchOutcome)
  | unknownAction (routeId action : Str)
  deriving DecidableEq

/-- Complete the claim of a request that was performed. -/
def completePerformed (routeId : Str) (claim : WorkClaim) (outcome : DispatchOutcome) :
    Pass (Except ParserError WorkOutcome) :=
  .call (.completeClaim claim.claimId claim.fencingToken) fun
    | .error error => .ret (.error error)
    | .ok (.completed _) => .ret (.ok (.completed routeId outcome))
    | .ok .fenced | .ok .notFound => .ret (.ok (.lostBeforeCompletion routeId claim.claimId))

/-- Complete the claim of a request whose action this service does not perform. -/
def completeUnknown (routeId : Str) (claim : WorkClaim) (action : Str) :
    Pass (Except ParserError WorkOutcome) :=
  .call (.completeClaim claim.claimId claim.fencingToken) fun
    | .error error => .ret (.error error)
    | .ok _ => .ret (.ok (.unknownAction routeId action))

/-- What a pass does with the result of the dispatched request. -/
def concludePass (routeId : Str) (claim : WorkClaim) :
    Except ParserError DispatchOutcome → Pass (Except ParserError WorkOutcome)
  | .ok outcome => completePerformed routeId claim outcome
  | .error (.unknownAction action) => completeUnknown routeId claim action
  | .error error => .ret (.error error)

variable (E : Externals)

/-- One pass of the work loop. -/
def workOnce (parserVersion : Str) (leaseSeconds : Int64) : Pass (Except ParserError WorkOutcome) :=
  .call .eligibleRoutes fun
    | .error error => .ret (.error error)
    | .ok [] => .ret (.ok .nothingEligible)
    | .ok (route :: _) =>
      .call (.proposeClaim route.routeId leaseSeconds) fun
        | .error error => .ret (.error error)
        | .ok .alreadyClaimed | .ok .routeNotFound => .ret (.ok (.claimLost route.routeId))
        | .ok (.claimed claim) =>
          .call (.routedRequest route.routeId) fun
            | .error error => .ret (.error error)
            | .ok .notFound => .ret (.ok (.requestUnavailable route.routeId))
            | .ok (.found request) =>
              (dispatch E parserVersion request.action request.scope).bind
                (concludePass route.routeId claim)

end Pf2eParser
