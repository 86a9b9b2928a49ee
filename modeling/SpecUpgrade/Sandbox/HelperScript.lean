/-!
The script that an instrumented test run loads. It collects what the probes ask for and writes it
as a payload when the run ends.
-/

namespace SpecUpgrade.Analysis

/-- The lines of the script that answers the probes in an instrumented source. -/
def helperScriptLines : List String :=
  ["# frozen_string_literal: true",
   "",
   "# Loaded with RUBYOPT=-r into the instrumented test run. Collects the values",
   "# requested by respec_analyze probes and writes them as JSON at exit to the",
   "# file named by RESPEC_ANALYSIS_OUTPUT.",
   "",
   "require 'json'",
   "",
   "module RespecAnalysis",
   "  @results = \x7b\x7d",
   "",
   "  class << self",
   "    attr_reader :results",
   "",
   "    def record(object, context, requests, path, begin_offset, end_offset)",
   "      entry = (@results[\"#\x7bpath\x7d:#\x7bbegin_offset\x7d:#\x7bend_offset\x7d\"] ||= \x7b\x7d)",
   "      requests.each do |key, (target, code)|",
   "        next if entry.key?(key) && !entry[key].key?('error')",
   "",
   "        receiver = target == 'self' ? object : context",
   "        entry[key] = evaluate(receiver, code)",
   "      end",
   "    end",
   "",
   "    def evaluate(receiver, code)",
   "      value = receiver.instance_eval(code)",
   "      \x7b 'result' => jsonable(value), 'context' => class_name(receiver) \x7d",
   "    rescue Exception => e # rubocop:disable Lint/RescueException",
   "      \x7b 'error' => \"#\x7be.class\x7d: #\x7be.message\x7d\" \x7d",
   "    end",
   "",
   "    def class_name(object)",
   "      Kernel.instance_method(:class).bind(object).call.name",
   "    rescue StandardError",
   "      nil",
   "    end",
   "",
   "    def jsonable(value)",
   "      case value",
   "      when nil, true, false, Integer, String then value",
   "      when Float then value.finite? ? value : value.to_s",
   "      when Symbol then value.to_s",
   "      when Array then value.map \x7b |item| jsonable(item) \x7d",
   "      when Hash then value.each_with_object(\x7b\x7d) \x7b |(k, v), h| h[k.to_s] = jsonable(v) \x7d",
   "      else value.inspect",
   "      end",
   "    end",
   "",
   "    def write",
   "      path = ENV.fetch('RESPEC_ANALYSIS_OUTPUT', nil)",
   "      return unless path",
   "",
   "      File.write(path, JSON.generate(@results))",
   "    end",
   "  end",
   "end",
   "",
   "module Kernel",
   "  private",
   "",
   "  def respec_analyze(object, context, requests, path, begin_offset, end_offset)",
   "    RespecAnalysis.record(object, context, requests, path, begin_offset, end_offset)",
   "    object",
   "  end",
   "end",
   "",
   "at_exit \x7b RespecAnalysis.write \x7d"]

def helperScript : String := String.join (helperScriptLines.map (· ++ "\n"))

end SpecUpgrade.Analysis
